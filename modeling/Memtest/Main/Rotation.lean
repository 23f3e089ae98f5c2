import Memtest.Main.Schedule
import Memtest.Main.StageWindows

/-!
# The rotation of the master

A test is run in all its stages by one master, then by the next, if it is to be run by all CPUs.
Which stage and which master come next is kept in `test_stage` and `master_cpu`, and the main loop
comes by here once for each stage, so what a test does is a matter of a whole run: its log is cut
into blocks, one for each stage and master (`StageBlocks`). A block holds the windows in which the
stage is run, and these are all windows that have pages to test, unless the user skips the test.

`seq_rotation` is about the runs in which no menu rejects a test sequence and the word behind
`test_sequence` is no number of a test.
-/

namespace Memtest

variable {cfg : MainConfig} {inp : Input} {s s' : MainState} {l l' : CpuState}

/-- A test is about to start: CPU 0 is in front of a trip of the main loop and a flag tells it to
begin a run, a pass or a test. -/
def AboutToStart (t : MainState × CpuState) : Prop :=
  t.2.point = .loopTop ∧
    (t.1.startRun = true ∨ t.1.startPass = true ∨ t.1.startTest = true)

/-- No menu has rejected a test sequence, and the word behind `test_sequence` ends the pass.
Without the first the program starts a pass in the middle of a rotation, without the second a test
that is not in the sequence. -/
structure Input.Regular (inp : Input) : Prop where
  noRejectedSequence : inp.NoRejectedSequence
  beyond : (numTestPatterns : ℤ) ≤ inp.beyond

/-- The states of the runs whose inputs meet a condition. -/
def Reachable (cfg : MainConfig) (P : Input → Prop) (t : MainState × CpuState) : Prop :=
  ∃ inps t₀, IsInitial t₀ ∧ (∀ inp ∈ inps, P inp) ∧ mainRun cfg inps t₀ = some t

/-- What the steps preserve holds of all reachable states. -/
theorem Reachable.induct {P : Input → Prop} {I : MainState × CpuState → Prop}
    {t : MainState × CpuState} (h : Reachable cfg P t) (hinit : ∀ t, IsInitial t → I t)
    (hstep : ∀ inp t t', P inp → I t → mainStep cfg inp t = some t' → I t') : I t := by
  obtain ⟨inps, t₀, h₀, hinps, hrun⟩ := h
  exact Executions.exec_invariant hstep
    (Executions.Always.of_forall fun inp hinp _ => hinps inp hinp) (hinit t₀ h₀) hrun

/-! ### The masters -/

/-- The CPUs that are not disabled, from one on and below another. -/
def MainConfig.masters (cfg : MainConfig) (first bound : ℕ) : List ℕ :=
  (List.range bound).filter fun cpu => !cfg.disabled cpu && decide (first ≤ cpu)

theorem MainConfig.masters_zero (cfg : MainConfig) :
    cfg.masters 0 cfg.numAvailableCpus = cfg.enabledCpus := by
  simp [masters, enabledCpus]

theorem MainConfig.masters_self (cfg : MainConfig) (first : ℕ) : cfg.masters first first = [] := by
  rw [masters, List.filter_eq_nil_iff]
  intro cpu hcpu
  have hlt := List.mem_range.mp hcpu
  simp [Nat.not_le.mpr hlt]

/-- The disabled CPUs are passed over. -/
theorem MainConfig.masters_skip {first bound bound' : ℕ} (hle : bound ≤ bound')
    (h : ∀ cpu, bound ≤ cpu → cpu < bound' → cfg.disabled cpu = true) :
    cfg.masters first bound' = cfg.masters first bound := by
  induction bound', hle using Nat.le_induction with
  | base => rfl
  | succ bound' hle ih =>
    rw [← ih fun cpu hcpu hlt => h cpu hcpu (hlt.trans (Nat.lt_succ_self _)), masters, masters,
      List.range_succ, List.filter_append, List.filter_singleton, h bound' hle (Nat.lt_succ_self _)]
    simp

theorem MainConfig.masters_succ {first masterCpu : ℕ} (hle : first ≤ masterCpu)
    (h : cfg.disabled masterCpu = false) :
    cfg.masters first (masterCpu + 1) = cfg.masters first masterCpu ++ [masterCpu] := by
  rw [masters, List.range_succ, List.filter_append, List.filter_singleton, h]
  simp [hle, masters]

/-- The stages a test is run in, with their masters: those before a stage of a master. -/
def MainConfig.roundsBefore (cfg : MainConfig) (stages first masterCpu testStage : ℕ) :
    List (ℕ × ℕ) :=
  (cfg.masters first masterCpu).flatMap (fun cpu => (List.range stages).map (cpu, ·)) ++
    (List.range testStage).map (masterCpu, ·)

/-- All stages of a test, with all masters from one on. -/
def MainConfig.rounds (cfg : MainConfig) (stages first : ℕ) : List (ℕ × ℕ) :=
  (cfg.masters first cfg.numAvailableCpus).flatMap fun cpu => (List.range stages).map (cpu, ·)

theorem MainConfig.roundsBefore_succ (cfg : MainConfig) (stages first masterCpu testStage : ℕ) :
    cfg.roundsBefore stages first masterCpu (testStage + 1) =
      cfg.roundsBefore stages first masterCpu testStage ++ [(masterCpu, testStage)] := by
  simp [roundsBefore, List.range_succ]

/-- After the last stage comes the first one with the next master, or the rotation is over. -/
theorem MainConfig.IsNextMaster.rounds {masterCpu next first : ℕ}
    (h : cfg.IsNextMaster masterCpu next) (stages : ℕ) (hlt : masterCpu < cfg.numAvailableCpus)
    (hfirst : first ≤ masterCpu) (hen : cfg.disabled masterCpu = false) :
    cfg.roundsBefore stages first masterCpu stages =
      if next = 0 then cfg.rounds stages first else cfg.roundsBefore stages first next 0 := by
  have hlast : cfg.roundsBefore stages first masterCpu stages =
      (cfg.masters first (masterCpu + 1)).flatMap fun cpu => (List.range stages).map (cpu, ·) := by
    rw [masters_succ hfirst hen, roundsBefore, List.flatMap_append, List.flatMap_singleton]
  obtain ⟨hgt, hrange, -, hbetween⟩ | ⟨hzero, hrest⟩ := h
  · rw [if_neg (by omega), hlast, roundsBefore, List.range_zero, List.map_nil, List.append_nil,
      masters_skip hgt fun cpu hle hlt => hbetween cpu hle hlt]
  · rw [if_pos hzero, hlast, MainConfig.rounds,
      masters_skip hlt fun cpu hle hlt => hrest cpu hle hlt]

theorem MainConfig.IsNextMaster.lt {masterCpu next : ℕ} (h : cfg.IsNextMaster masterCpu next)
    (hne : next ≠ 0) : masterCpu < next := by
  obtain ⟨hlt, -⟩ | ⟨hzero, -⟩ := h
  · exact hlt
  · exact absurd hzero hne

/-! ### The log of a test -/

/-- An event of a stage of a test with a master: a window it runs in, or a mere access. The number
of the test, the stage and the master are those of the call of `run_test`. -/
def MainEvent.InStage (testNum : ℤ) (stage masterCpu : ℕ) : MainEvent → Prop
  | .runTest testNum' stage' masterCpu' _ _ =>
      testNum' = testNum ∧ stage' = stage ∧ masterCpu' = masterCpu
  | .readSequence _ | .indexTest _ => True
  | _ => False

/-- An event that is no part of a test. -/
def MainEvent.OutsideTest : MainEvent → Prop
  | .readSequence _ | .indexTest _ | .startPass .. | .endPass _ => True
  | _ => False

/-- The log of a test that has gone through some stages with their masters, one block for each. A
block holds the windows the stage has been run in, and `complete` is what is asked of them, so
that a block cannot be empty where there is memory to test. Each block is closed by the event that
the main loop logs when it has come back from `test_all_windows`. -/
inductive StageBlocks (testNum : ℤ) (complete : List ℕ → Prop) :
    List (ℕ × ℕ) → List MainEvent → Prop
  | nil : StageBlocks testNum complete [] []
  | stage {rounds : List (ℕ × ℕ)} {events block : List MainEvent} {masterCpu stage : ℕ} :
      StageBlocks testNum complete rounds events →
      (∀ e ∈ block, e.InStage testNum stage masterCpu) → complete (runWindows block) →
      StageBlocks testNum complete (rounds ++ [(masterCpu, stage)])
        (events ++ (block ++ [.endStage testNum stage masterCpu]))

theorem StageBlocks.mono {testNum : ℤ} {complete complete' : List ℕ → Prop}
    {rounds : List (ℕ × ℕ)} {events : List MainEvent}
    (h : StageBlocks testNum complete rounds events)
    (himp : ∀ tested, complete tested → complete' tested) :
    StageBlocks testNum complete' rounds events := by
  induction h with
  | nil => exact .nil
  | stage _ hblock hcomplete ih => exact .stage ih hblock (himp _ hcomplete)

/-! ### What holds in every state -/

/-- The master is a CPU that is not disabled, a wish for a restart ends the test, and nothing is
skipped in the middle of a window. -/
structure Sound (cfg : MainConfig) (s : MainState) (point : WaitPoint) : Prop where
  masterCpu : s.masterCpu < cfg.numAvailableCpus ∧ cfg.disabled s.masterCpu = false
  bail : s.restart = true → s.bail = true
  restart : s.restart = true → point = .windowEntry ∨ point = .testDone
  window : s.bail = true → point = .loopTop ∨ point = .testReady ∨ point = .windowEntry ∨
    point = .testDone ∨ point = .finished

theorem MainConfig.IsNextMaster.sound {masterCpu next : ℕ} (h : cfg.IsNextMaster masterCpu next) :
    next < cfg.numAvailableCpus ∧ cfg.disabled next = false := by
  obtain ⟨-, hrange, hen, -⟩ | ⟨rfl, -⟩ := h
  · exact ⟨hrange, hen⟩
  · exact ⟨cfg.numAvailableCpus_pos, cfg.bsp_enabled⟩

theorem configMenu_bail (cfg : MainConfig) (s : MainState) (actions : List MenuAction)
    (h : (configMenu cfg s actions).restart = true) :
    (configMenu cfg s actions).bail = true := by
  rw [configMenu] at h ⊢
  split_ifs at h ⊢ <;> first | rfl | exact absurd h ‹_›

theorem checkInput_bail (cfg : MainConfig) (s : MainState) (menus : List (List MenuAction))
    (hs : s.restart = true → s.bail = true) (h : (checkInput cfg s menus).restart = true) :
    (checkInput cfg s menus).bail = true := by
  induction menus generalizing s with
  | nil => exact hs h
  | cons actions menus ih => exact ih _ (configMenu_bail cfg s actions) h

theorem chooseWindow_flags (cfg : MainConfig) (s : MainState) (l : CpuState) :
    (chooseWindow cfg s l).1.restart = s.restart ∧ (chooseWindow cfg s l).1.bail = s.bail ∧
      (chooseWindow cfg s l).2.point = if s.bail then .testDone else .windowChosen := by
  rw [chooseWindow]
  split_ifs with hbail <;> exact ⟨rfl, rfl, rfl⟩

theorem setupWindow_flags (cfg : MainConfig) (s : MainState) (l : CpuState) :
    (setupWindow cfg s l).1.restart = s.restart ∧ (setupWindow cfg s l).1.bail = s.bail := by
  rw [setupWindow]
  split_ifs <;> exact ⟨rfl, rfl⟩

theorem loopPoint_eq (cfg : MainConfig) (s : MainState) :
    loopPoint cfg s = .windowEntry ∨ loopPoint cfg s = .testDone := by
  rw [loopPoint]
  split_ifs
  · exact .inl rfl
  · exact .inr rfl

theorem testWindow_flags (cfg : MainConfig) (inp : Input) (s : MainState) (l : CpuState)
    (hs : s.restart = true → s.bail = true) :
    ((testWindow cfg inp s l).1.restart = true → (testWindow cfg inp s l).1.bail = true) ∧
      ((testWindow cfg inp s l).2.point = .windowEntry ∨
        (testWindow cfg inp s l).2.point = .testDone) := by
  rw [testWindow]
  split_ifs
  · exact ⟨hs, loopPoint_eq cfg s⟩
  · exact ⟨hs, loopPoint_eq cfg _⟩
  · exact ⟨hs, loopPoint_eq cfg _⟩
  · exact ⟨checkInput_bail cfg _ _ hs, loopPoint_eq cfg _⟩
  · exact ⟨hs, loopPoint_eq cfg _⟩
  · split
    · exact ⟨hs, .inr rfl⟩
    · exact ⟨checkInput_bail cfg _ _ hs, loopPoint_eq cfg _⟩
  · split
    · exact ⟨hs, .inr rfl⟩
    · exact ⟨hs, loopPoint_eq cfg _⟩

/-- The prologue keeps the master and does not ask for a restart. -/
theorem prologue_flags (beyond : ℤ) (s : MainState) :
    (prologue beyond s).restart = s.restart ∧ (prologue beyond s).masterCpu = s.masterCpu := by
  by_cases hpass : s.startRun = true ∨ s.startPass = true
  · rw [prologue_of_startPass beyond hpass]
    exact ⟨rfl, rfl⟩
  · obtain ⟨hrun, hpass⟩ := not_or.mp hpass
    rw [Bool.not_eq_true] at hrun hpass
    cases htest : s.startTest with
    | true =>
      rw [prologue_of_startTest beyond hrun hpass htest]
      exact ⟨rfl, rfl⟩
    | false =>
      rw [prologue_of_resume beyond hrun hpass htest, beginStage]
      split_ifs <;> exact ⟨rfl, rfl⟩

/-- Nor does it change what the windows of a test depend on. -/
theorem prologue_settings (beyond : ℤ) (s : MainState) :
    (prologue beyond s).limits = s.limits ∧ (prologue beyond s).dummyRun = s.dummyRun := by
  by_cases hpass : s.startRun = true ∨ s.startPass = true
  · rw [prologue_of_startPass beyond hpass]
    exact ⟨rfl, rfl⟩
  · obtain ⟨hrun, hpass⟩ := not_or.mp hpass
    rw [Bool.not_eq_true] at hrun hpass
    cases htest : s.startTest with
    | true =>
      rw [prologue_of_startTest beyond hrun hpass htest]
      exact ⟨rfl, rfl⟩
    | false =>
      rw [prologue_of_resume beyond hrun hpass htest, beginStage]
      split_ifs <;> exact ⟨rfl, rfl⟩

/-- The first step of a trip. -/
theorem mainStep_loopTop {t t' : MainState × CpuState} (h : t.2.point = .loopTop)
    (hstep : mainStep cfg inp t = some t') :
    t'.1 = prologue inp.beyond t.1 ∧ t'.2.point = .testReady := by
  simp only [mainStep, segment, h, if_true, Option.some.injEq] at hstep
  rw [← hstep]
  exact ⟨rfl, rfl⟩

theorem prologue_clears (beyond : ℤ) (s : MainState) : (prologue beyond s).startRun = false ∧
    (prologue beyond s).startPass = false ∧ (prologue beyond s).startTest = false :=
  ⟨rfl, rfl, rfl⟩

theorem nextTest_flags (inp : Input) (s : MainState) :
    (nextTest inp s).1.restart = s.restart ∧ (nextTest inp s).1.masterCpu = s.masterCpu ∧
      ((nextTest inp s).2 = .loopTop ∨ (nextTest inp s).2 = .finished) := by
  obtain ⟨_, _, _, _, _, _, point, heq, hnext⟩ := nextTest_eq inp s
  rw [heq]
  refine ⟨rfl, rfl, ?_⟩
  obtain ⟨-, -, hpoint⟩ | ⟨-, -, hpoint⟩ := hnext
  · exact .inl hpoint
  · exact hpoint

/-- The epilogue takes CPU 0 to the next trip, or the program ends. -/
theorem epilogue_point (cfg : MainConfig) (inp : Input) (s : MainState) :
    (epilogue cfg inp s).2 = .loopTop ∨ (epilogue cfg inp s).2 = .finished := by
  obtain ⟨-, heq⟩ | ⟨-, -, heq⟩ | ⟨-, -, heq⟩ := epilogue_cases cfg inp s rfl
  · exact .inl (by rw [heq])
  · exact heq ▸ (nextTest_flags inp _).2.2
  · obtain ⟨-, heq'⟩ | ⟨-, -, -, heq'⟩ | ⟨next, -, -, heq'⟩ :=
      endStage_cases cfg inp (checkInput cfg s inp.menus)
    · exact .inl (by rw [heq, heq'])
    · exact .inl (by rw [heq, heq'])
    · exact (heq.trans heq') ▸ (nextTest_flags inp _).2.2

theorem MainConfig.LeavesTest.sound {next : ℕ} (h : cfg.LeavesTest s next)
    (hs : s.masterCpu < cfg.numAvailableCpus ∧ cfg.disabled s.masterCpu = false) :
    next < cfg.numAvailableCpus ∧ cfg.disabled next = false := by
  obtain ⟨-, rfl, -⟩ | ⟨-, rfl⟩ | ⟨-, -, rfl⟩ := h
  · exact ⟨cfg.numAvailableCpus_pos, cfg.bsp_enabled⟩
  · exact (selectNextMaster_isNextMaster hs.1).sound
  · exact hs

/-- After the epilogue no restart is pending. -/
theorem epilogue_flags (inp : Input)
    (hs : s.masterCpu < cfg.numAvailableCpus ∧ cfg.disabled s.masterCpu = false) :
    (epilogue cfg inp s).1.restart = false ∧
      ((epilogue cfg inp s).1.masterCpu < cfg.numAvailableCpus ∧
        cfg.disabled (epilogue cfg inp s).1.masterCpu = false) ∧
      ((epilogue cfg inp s).2 = .loopTop ∨ (epilogue cfg inp s).2 = .finished) := by
  obtain ⟨s₁, hs₁⟩ : ∃ s₁, s₁ = checkInput cfg s inp.menus := ⟨_, rfl⟩
  have hmaster : s₁.masterCpu < cfg.numAvailableCpus ∧ cfg.disabled s₁.masterCpu = false := by
    rw [hs₁, checkInput_masterCpu]
    exact hs
  have hnext : ∀ s₂, s₂.restart = false → (s₂.masterCpu < cfg.numAvailableCpus ∧
      cfg.disabled s₂.masterCpu = false) → epilogue cfg inp s = nextTest inp s₂ → _ :=
    fun s₂ hrestart hsound heq => by
      obtain ⟨hr, hm, hp⟩ := nextTest_flags inp s₂
      rw [← heq] at hr hm hp
      exact And.intro (hr.trans hrestart) (And.intro (hm ▸ hsound) hp)
  obtain ⟨-, heq⟩ | ⟨hrestart, -, heq⟩ | ⟨hrestart, -, heq⟩ := epilogue_cases cfg inp s hs₁
  · rw [heq]
    exact ⟨rfl, ⟨cfg.numAvailableCpus_pos, cfg.bsp_enabled⟩, .inl rfl⟩
  · exact hnext (s₁.record (.indexTest s₁.testNum)) hrestart hmaster heq
  · obtain ⟨-, heq'⟩ | ⟨-, -, -, heq'⟩ | ⟨next, -, hleaves, heq'⟩ := endStage_cases cfg inp s₁
    · rw [heq, heq']
      exact ⟨hrestart, hmaster, .inl rfl⟩
    · rw [heq, heq']
      exact ⟨hrestart, (selectNextMaster_isNextMaster hmaster.1).sound, .inl rfl⟩
    · exact hnext (s₁.afterStage 0 next) hrestart (hleaves.sound hmaster) (heq.trans heq')

theorem Sound.restart_eq {point : WaitPoint} (h : Sound cfg s point)
    (hentry : point ≠ .windowEntry) (hdone : point ≠ .testDone) : s.restart = false := by
  by_contra hrestart
  exact (h.restart (by simpa using hrestart)).elim hentry hdone

/-- A state in which no restart is pending, at a wait that a skipped test can come to. -/
theorem Sound.of_restart {point : WaitPoint}
    (hmaster : s.masterCpu < cfg.numAvailableCpus ∧ cfg.disabled s.masterCpu = false)
    (hrestart : s.restart = false)
    (hpoint : s.bail = true → point = .loopTop ∨ point = .testReady ∨ point = .windowEntry ∨
      point = .testDone ∨ point = .finished) : Sound cfg s point where
  masterCpu := hmaster
  bail h := absurd (h.symm.trans hrestart) nofun
  restart h := absurd (h.symm.trans hrestart) nofun
  window := hpoint

theorem Sound.mainStep (h : Sound cfg s l.point)
    (hstep : mainStep cfg inp (s, l) = some (s', l')) : Sound cfg s' l'.point := by
  have hmaster := h.masterCpu
  cases hp : l.point with
  | loopTop =>
    obtain ⟨hrestart, hmaster'⟩ := prologue_flags inp.beyond s
    have hquiet := h.restart_eq (by simp [hp]) (by simp [hp])
    simp only [Memtest.mainStep, segment, hp, if_true, Option.some.injEq, Prod.mk.injEq] at hstep
    obtain ⟨rfl, rfl⟩ := hstep
    exact .of_restart (hmaster' ▸ hmaster) (hrestart.trans hquiet) fun _ => .inr (.inl rfl)
  | testReady =>
    have hquiet := h.restart_eq (by simp [hp]) (by simp [hp])
    simp only [Memtest.mainStep, segment, hp, Option.some.injEq] at hstep
    split_ifs at hstep
    · obtain ⟨rfl, rfl⟩ := Prod.mk.inj hstep
      exact .of_restart hmaster hquiet fun _ => .inr (.inr (.inl rfl))
    · obtain ⟨rfl, rfl⟩ := Prod.mk.inj hstep
      exact .of_restart hmaster hquiet fun _ => .inr (.inr (.inr (.inl rfl)))
  | windowEntry =>
    obtain ⟨hrestart, hbail, hpoint⟩ := chooseWindow_flags cfg s l
    have hmaster' := (TestStep.chooseWindow cfg inp s l).1.masterCpu
    simp only [Memtest.mainStep, segment, hp, Option.some.injEq] at hstep
    rw [hstep] at hrestart hbail hpoint hmaster'
    cases hb : s.bail with
    | true =>
      rw [hb, if_pos rfl] at hpoint
      exact ⟨hmaster' ▸ hmaster, fun _ => hbail.trans hb, fun _ => .inr hpoint,
        fun _ => .inr (.inr (.inr (.inl hpoint)))⟩
    | false =>
      have hquiet : s.restart = false := by
        by_contra hrestart
        exact absurd (hb.symm.trans (h.bail (by simpa using hrestart)))
          Bool.false_ne_true
      exact .of_restart (hmaster' ▸ hmaster) (hrestart.trans hquiet) fun hb' =>
        absurd (hb'.symm.trans (hbail.trans hb)) Bool.false_ne_true.symm
  | windowChosen =>
    have hquiet := h.restart_eq (by simp [hp]) (by simp [hp])
    have hb : s.bail = false := by
      by_contra hb
      exact absurd (h.window (by simpa using hb)) (by simp [hp])
    obtain ⟨hrestart, hbail⟩ := setupWindow_flags cfg s l
    have hmaster' := (TestStep.setupWindow cfg inp s l).1.masterCpu
    simp only [Memtest.mainStep, segment, hp, Option.some.injEq] at hstep
    rw [hstep] at hrestart hbail hmaster'
    exact .of_restart (hmaster' ▸ hmaster) (hrestart.trans hquiet) fun hb' =>
      absurd (hb'.symm.trans (hbail.trans hb)) Bool.false_ne_true.symm
  | windowMapped =>
    obtain ⟨hbail, hpoint⟩ := testWindow_flags cfg inp s l h.bail
    have hmaster' := (TestStep.testWindow cfg inp s l).1.masterCpu
    simp only [Memtest.mainStep, segment, hp, Option.some.injEq] at hstep
    rw [hstep] at hbail hpoint hmaster'
    exact ⟨hmaster' ▸ hmaster, hbail, fun _ => hpoint, fun _ => .inr (.inr
      (hpoint.imp_right .inl))⟩
  | runAt target =>
    have hquiet := h.restart_eq (by simp [hp]) (by simp [hp])
    simp only [Memtest.mainStep, segment, hp, Option.some.injEq, Prod.mk.injEq] at hstep
    obtain ⟨rfl, rfl⟩ := hstep
    exact .of_restart hmaster hquiet fun _ => .inl rfl
  | testDone =>
    obtain ⟨hrestart, hmaster', hpoint⟩ := epilogue_flags inp hmaster
    simp only [Memtest.mainStep, segment, hp, if_true, Option.some.injEq, Prod.mk.injEq] at hstep
    obtain ⟨rfl, rfl⟩ := hstep
    exact .of_restart hmaster' hrestart fun _ => hpoint.imp_right fun h =>
      .inr (.inr (.inr h))
  | finished => simp [Memtest.mainStep, segment, hp] at hstep

theorem IsInitial.sound {t : MainState × CpuState} (h : IsInitial t) :
    Sound cfg t.1 t.2.point :=
  .of_restart (h.masterCpu ▸ ⟨cfg.numAvailableCpus_pos, cfg.bsp_enabled⟩) h.restart
    fun _ => .inl h.point

/-! ### Skipped tests -/

/-- A window in which a test is run. -/
def MainEvent.IsRunTest : MainEvent → Prop
  | .runTest .. => True
  | _ => False

theorem nextTest_events (inp : Input) (s : MainState) :
    ∃ events, (nextTest inp s).1.log = s.log ++ events ∧ ∀ e ∈ events, e.OutsideTest := by
  obtain ⟨_, _, _, _, _, events, _, heq, hnext⟩ := nextTest_eq inp s
  rw [heq]
  refine ⟨_, rfl, ?_⟩
  obtain ⟨rfl, -⟩ | ⟨rfl, -⟩ := hnext <;> simp [MainEvent.OutsideTest]

theorem nextTest_bail (inp : Input) (s : MainState) : (nextTest inp s).1.bail = s.bail := by
  obtain ⟨_, _, _, _, _, _, _, heq, -⟩ := nextTest_eq inp s
  rw [heq]

/-- The epilogue runs nothing, and a test that is skipped stays so. -/
theorem epilogue_skip (cfg : MainConfig) (inp : Input) (hbail : s.bail = true) :
    (epilogue cfg inp s).1.bail = true ∧
      ∃ events, (epilogue cfg inp s).1.log = s.log ++ events ∧ ∀ e ∈ events, ¬e.IsRunTest := by
  obtain ⟨s₁, hs₁⟩ : ∃ s₁, s₁ = checkInput cfg s inp.menus := ⟨_, rfl⟩
  have hlog : s.log = s₁.log := by rw [hs₁, checkInput_log]
  have hbail₁ : s₁.bail = true := hs₁ ▸ (MenuStep.checkInput cfg s inp.menus).bail hbail
  have hnext : ∀ (s₂ : MainState) (events : List MainEvent), s₂.bail = true →
      s₂.log = s₁.log ++ events → (∀ e ∈ events, ¬e.IsRunTest) →
      (nextTest inp s₂).1.bail = true ∧ ∃ events, (nextTest inp s₂).1.log = s₁.log ++ events ∧
        ∀ e ∈ events, ¬e.IsRunTest := by
    intro s₂ events hb hlog hevents
    obtain ⟨events', hlog', hevents'⟩ := nextTest_events inp s₂
    refine ⟨(nextTest_bail inp s₂).trans hb, events ++ events',
      by rw [hlog', hlog, List.append_assoc], fun e he => ?_⟩
    obtain he | he := List.mem_append.mp he
    · exact hevents e he
    · have hout := hevents' e he
      cases e with
      | runTest => exact hout.elim
      | _ => exact id
  rw [hlog]
  obtain ⟨-, heq⟩ | ⟨-, -, heq⟩ | ⟨-, -, heq⟩ := epilogue_cases cfg inp s hs₁
  · rw [heq]
    exact ⟨hbail₁, _, rfl, by simp [MainEvent.IsRunTest]⟩
  · rw [heq]
    exact hnext _ _ hbail₁ rfl (by simp [MainEvent.IsRunTest])
  · obtain ⟨-, heq'⟩ | ⟨-, -, -, heq'⟩ | ⟨next, -, -, heq'⟩ := endStage_cases cfg inp s₁
    · rw [heq, heq']
      exact ⟨hbail₁, _, rfl, by simp [MainEvent.IsRunTest]⟩
    · rw [heq, heq']
      exact ⟨hbail₁, _, rfl, by simp [MainEvent.IsRunTest]⟩
    · rw [heq, heq']
      exact hnext (s₁.afterStage 0 next) _ hbail₁ rfl (by simp [MainEvent.IsRunTest])

/-- A step of a test that is skipped, or behind it. -/
theorem Sound.mainStep_skip (h : Sound cfg s l.point) (hbail : s.bail = true)
    (hstart : ¬AboutToStart (s, l)) (hstep : Memtest.mainStep cfg inp (s, l) = some (s', l')) :
    s'.bail = true ∧ ∃ events, s'.log = s.log ++ events ∧ ∀ e ∈ events, ¬e.IsRunTest := by
  have hnone : ∃ events, s.log = s.log ++ events ∧ ∀ e ∈ events, ¬e.IsRunTest :=
    ⟨[], (List.append_nil _).symm, by simp⟩
  have hpoint := h.window hbail
  cases hp : l.point with
  | loopTop =>
    obtain ⟨hrun, hnot⟩ := not_or.mp (not_and.mp hstart hp)
    obtain ⟨hpass, htest⟩ := not_or.mp hnot
    simp only [Memtest.mainStep, segment, hp, if_true, Option.some.injEq, Prod.mk.injEq] at hstep
    obtain ⟨rfl, rfl⟩ := hstep
    rw [prologue_of_resume inp.beyond (by simpa using hrun) (by simpa using hpass)
      (by simpa using htest), beginStage]
    split_ifs <;> exact ⟨hbail, hnone⟩
  | testReady =>
    simp only [Memtest.mainStep, segment, hp, Option.some.injEq] at hstep
    split_ifs at hstep
    all_goals
      obtain ⟨rfl, rfl⟩ := Prod.mk.inj hstep
      exact ⟨hbail, _, rfl, by simp [MainEvent.IsRunTest]⟩
  | windowEntry =>
    simp only [Memtest.mainStep, segment, hp, chooseWindow, hbail, if_true, Option.some.injEq,
      Prod.mk.injEq] at hstep
    obtain ⟨rfl, rfl⟩ := hstep
    exact ⟨hbail, hnone⟩
  | testDone =>
    have hskip := epilogue_skip cfg inp hbail
    simp only [Memtest.mainStep, segment, hp, if_true, Option.some.injEq, Prod.mk.injEq] at hstep
    obtain ⟨rfl, rfl⟩ := hstep
    exact hskip
  | windowChosen | windowMapped | runAt => simp [hp] at hpoint
  | finished => simp [Memtest.mainStep, segment, hp] at hstep

/-! ### A test from its start to the next -/

/-- The stages of a test with their masters, where it starts with a master in a CPU mode. -/
def MainConfig.testRounds (cfg : MainConfig) (mode : CpuMode) (testNum : ℤ) (first : ℕ) :
    List (ℕ × ℕ) :=
  if mode = .seq ∨ mode = .par ∧ (cfg.testPattern testNum).cpuMode = .seq then
    cfg.rounds (cfg.testPattern testNum).stages first
  else (List.range (cfg.testPattern testNum).stages).map (first, ·)

/-- Events that are no part of a test. -/
def OutsideTest (events : List MainEvent) : Prop :=
  ∀ e ∈ events, e.OutsideTest

/-- The events of a stage with a master, in which the test has been run in some windows. -/
structure StageSoFar (testNum : ℤ) (stage masterCpu : ℕ) (tested : List ℕ)
    (events : List MainEvent) : Prop where
  inStage : ∀ e ∈ events, e.InStage testNum stage masterCpu
  windows : runWindows events = tested

theorem StageSoFar.nil (testNum : ℤ) (stage masterCpu : ℕ) :
    StageSoFar testNum stage masterCpu [] [] := ⟨by simp, rfl⟩

/-- The log of a test that started behind some events, with what has been done of it: the stages
that are over, and what has come behind them. -/
def TestLog (testNum : ℤ) (complete : List ℕ → Prop) (rounds : List (ℕ × ℕ))
    (rest : List MainEvent → Prop) (log₀ log : List MainEvent) : Prop :=
  ∃ head stages tail, log = log₀ ++ (head ++ .startTest testNum :: (stages ++ tail)) ∧
    OutsideTest head ∧ StageBlocks testNum complete rounds stages ∧ rest tail

/-- A test is being run, and nothing has happened that is not part of it. It has come through the
windows `tested` of its stage, and each stage before that through the windows `ws`, unless the test
has been skipped. -/
structure InRotation (cfg : MainConfig) (log₀ : List MainEvent) (t : ℤ) (mode : CpuMode) (k : ℕ)
    (ws : List ℕ) (noSkip : Prop) (tested : List ℕ) (s : MainState) : Prop where
  testNum : s.testNum = t
  enabled : s.enabled t = true
  cpuMode : s.cpuMode = mode
  testStage : s.testStage < (cfg.testPattern t).stages
  startRun : s.startRun = false
  startTest : s.startTest = false
  first : k ≤ s.masterCpu
  rotates : cfg.Rotates s ∨ s.masterCpu = k
  bail : noSkip → s.bail = false
  log : TestLog t (Tested ws s.bail)
    (cfg.roundsBefore (cfg.testPattern t).stages k s.masterCpu s.testStage)
    (StageSoFar t s.testStage s.masterCpu tested) log₀ s.log

/-- A test is over. -/
structure TestOver (cfg : MainConfig) (log₀ : List MainEvent) (testNum : ℤ) (mode : CpuMode)
    (first : ℕ) (ws : List ℕ) (noSkip : Prop) (s : MainState) : Prop where
  cpuMode : s.cpuMode = mode
  masterCpu : mode = .seq → s.masterCpu = 0
  startTest : s.startTest = true
  bail : noSkip → s.bail = false
  log : TestLog testNum (Tested ws s.bail) (cfg.testRounds mode testNum first) OutsideTest log₀
    s.log

section

variable {log₀ log : List MainEvent} {t : ℤ} {mode : CpuMode} {first : ℕ} {ws tested : List ℕ}
  {noSkip : Prop} {complete : List ℕ → Prop} {rest rest' : List MainEvent → Prop}

theorem TestLog.mono {rounds : List (ℕ × ℕ)} {complete' : List ℕ → Prop}
    (h : TestLog t complete rounds rest log₀ log)
    (himp : ∀ tested, complete tested → complete' tested) :
    TestLog t complete' rounds rest log₀ log := by
  obtain ⟨head, stages, tail, hlog, hhead, hstages, htail⟩ := h
  exact ⟨head, stages, tail, hlog, hhead, hstages.mono himp, htail⟩

/-- More events. -/
theorem TestLog.append {rounds : List (ℕ × ℕ)} (h : TestLog t complete rounds rest log₀ log)
    {events : List MainEvent} (hevents : ∀ tail, rest tail → rest' (tail ++ events)) :
    TestLog t complete rounds rest' log₀ (log ++ events) := by
  obtain ⟨head, stages, tail, rfl, hhead, hstages, htail⟩ := h
  exact ⟨head, stages, tail ++ events, by simp, hhead, hstages, hevents tail htail⟩

theorem OutsideTest.nil : OutsideTest [] := fun _ he => absurd he List.not_mem_nil

theorem OutsideTest.append {events events' : List MainEvent} (h : OutsideTest events)
    (h' : OutsideTest events') : OutsideTest (events ++ events') := fun e he =>
  (List.mem_append.mp he).elim (h e) (h' e)

/-- The end of a stage. -/
theorem TestLog.endStage {rounds : List (ℕ × ℕ)} {stage masterCpu : ℕ}
    (h : TestLog t complete rounds (StageSoFar t stage masterCpu tested) log₀ log)
    (hcomplete : complete tested) (hrest : rest []) :
    TestLog t complete (rounds ++ [(masterCpu, stage)]) rest log₀
      (log ++ [.indexTest t, .endStage t stage masterCpu]) := by
  obtain ⟨head, stages, tail, rfl, hhead, hstages, htail⟩ := h
  have hblock : ∀ e ∈ tail ++ [.indexTest t], e.InStage t stage masterCpu := fun e he => by
    obtain he | he := List.mem_append.mp he
    · exact htail.inStage e he
    · rw [List.mem_singleton.mp he]
      trivial
  have hwindows : runWindows (tail ++ [.indexTest t]) = tested := by
    rw [runWindows_append, htail.windows]
    exact List.append_nil _
  exact ⟨head, _, [], by simp, hhead, .stage hstages hblock (hwindows ▸ hcomplete), hrest⟩

theorem InRotation.mono {events : List MainEvent} {tested' : List ℕ}
    (h : InRotation cfg log₀ t mode first ws noSkip tested s)
    (hconfig : s.SameConfig s') (hmode : s'.cpuMode = s.cpuMode) (htest : s'.testNum = s.testNum)
    (hstage : s'.testStage = s.testStage) (hmaster : s'.masterCpu = s.masterCpu)
    (hrun : s'.startRun = false) (hstart : s'.startTest = false)
    (hbail : s.bail = true → s'.bail = true) (hskip : noSkip → s'.bail = false)
    (hlog : s'.log = s.log ++ events)
    (hevents : ∀ e ∈ events, e.InStage t s.testStage s.masterCpu)
    (htested : tested' = tested ++ runWindows events) :
    InRotation cfg log₀ t mode first ws noSkip tested' s' where
  testNum := htest.trans h.testNum
  enabled := by rw [hconfig.enabled, h.enabled]
  cpuMode := hmode.trans h.cpuMode
  testStage := hstage ▸ h.testStage
  startRun := hrun
  startTest := hstart
  first := hmaster ▸ h.first
  rotates := by
    rw [hmaster]
    refine h.rotates.imp_left fun hrot => ?_
    rwa [MainConfig.Rotates, hmode, htest]
  bail := hskip
  log := by
    rw [hlog, hmaster, hstage, htested]
    refine (h.log.mono fun _ htested => htested.mono hbail).append fun tail htail =>
      ⟨fun e he => ?_, ?_⟩
    · exact (List.mem_append.mp he).elim (htail.inStage e) (hevents e)
    · rw [runWindows_append, htail.windows]

/-- The log of a stage that is over. -/
theorem InRotation.afterStage_log (h : InRotation cfg log₀ t mode first ws noSkip tested s)
    (htested : Tested ws s.bail tested) (hrest : rest []) (testStage masterCpu : ℕ) :
    TestLog t (Tested ws s.bail)
      (cfg.roundsBefore (cfg.testPattern t).stages first s.masterCpu (s.testStage + 1)) rest
      log₀ (s.afterStage testStage masterCpu).log := by
  rw [cfg.roundsBefore_succ, MainState.afterStage, h.testNum]
  exact h.log.endStage htested hrest

/-- The last stage of a master. -/
theorem InRotation.lastStage (h : InRotation cfg log₀ t mode first ws noSkip tested s)
    (hstages : (cfg.testPattern s.testNum).stages ≤ s.testStage + 1) :
    s.testStage + 1 = (cfg.testPattern t).stages := by
  rw [h.testNum] at hstages
  exact le_antisymm h.testStage hstages

/-- The rounds of a test that leaves its last master. -/
theorem InRotation.rounds (h : InRotation cfg log₀ t mode first ws noSkip tested s)
    (hmaster : s.masterCpu < cfg.numAvailableCpus ∧ cfg.disabled s.masterCpu = false)
    {next : ℕ} (hleaves : cfg.LeavesTest s next) :
    cfg.roundsBefore (cfg.testPattern t).stages first s.masterCpu (cfg.testPattern t).stages =
      cfg.testRounds mode t first := by
  have hrot : cfg.Rotates s ↔ mode = .seq ∨ mode = .par ∧ (cfg.testPattern t).cpuMode = .seq := by
    rw [MainConfig.Rotates, h.cpuMode, h.testNum]
  rw [MainConfig.testRounds]
  split_ifs with hmode
  · have hnext := selectNextMaster_isNextMaster hmaster.1
    rw [hleaves.masterCpu (hrot.mpr hmode)] at hnext
    rw [hnext.rounds _ hmaster.1 h.first hmaster.2, if_pos rfl]
  · rw [h.rotates.resolve_left fun hr => hmode (hrot.mp hr), MainConfig.roundsBefore,
      cfg.masters_self, List.flatMap_nil, List.nil_append]

theorem InRotation.testStep (h : InRotation cfg log₀ t mode first ws noSkip tested s)
    (hstep : TestStep inp s s') (hinp : noSkip → inp.NoSkip) (hrestart : s'.restart = false)
    {events : List MainEvent} (hlog : s'.log = s.log ++ events) :
    InRotation cfg log₀ t mode first ws noSkip (tested ++ runWindows events) s' := by
  obtain ⟨hconfig, hmode⟩ := hstep.keep.resolve_left (by simp [hrestart])
  obtain ⟨events', hlog', hevents⟩ := hstep.log
  obtain rfl := List.append_cancel_left (hlog'.symm.trans hlog)
  refine h.mono hconfig hmode hstep.testNum hstep.testStage hstep.masterCpu
    (hstep.startRun.trans h.startRun) (hstep.startTest.trans h.startTest) hstep.bail
    (fun hno => ?_) hlog (fun e he => ?_) rfl
  · by_contra hbail
    obtain hb | hr := hstep.skip (hinp hno) (by simpa using hbail)
    · exact Bool.false_ne_true ((h.bail hno).symm.trans hb)
    · exact Bool.false_ne_true (hrestart.symm.trans hr)
  · obtain rfl | ⟨iterations, windowNum, rfl⟩ := hevents e he
    · trivial
    · exact ⟨h.testNum, rfl, rfl⟩

theorem InRotation.fetchTest (h : InRotation cfg log₀ t mode first ws noSkip tested s)
    (beyond : ℤ) (htest : s.testNum = s.testSequence.read beyond s.testNumIndex) :
    InRotation cfg log₀ t mode first ws noSkip tested (s.fetchTest beyond) :=
  h.mono ⟨rfl, rfl, rfl, rfl⟩ rfl htest.symm rfl rfl h.startRun h.startTest id h.bail
    (s.fetchTest_log beyond) (fun e he => by
      rw [List.mem_singleton.mp he]
      trivial) (List.append_nil _).symm

theorem InRotation.prologue (h : InRotation cfg log₀ t mode first ws noSkip tested s) (beyond : ℤ)
    (hpass : s.startPass = false) :
    InRotation cfg log₀ t mode first ws noSkip tested (prologue beyond s) := by
  rw [prologue_of_resume beyond h.startRun hpass h.startTest, beginStage]
  have hsame : ∀ windowNum windowStart windowEnd,
      InRotation cfg log₀ t mode first ws noSkip tested { s with
        windowNum := windowNum, windowStart := windowStart, windowEnd := windowEnd
        rerunTest := false } := fun _ _ _ =>
    h.mono ⟨rfl, rfl, rfl, rfl⟩ rfl rfl rfl rfl h.startRun h.startTest id h.bail
      (List.append_nil _).symm (by simp) (List.append_nil _).symm
  split_ifs
  · exact hsame 0 0 0
  · exact hsame s.windowNum s.windowStart s.windowEnd

/-- The menus of the epilogue. -/
theorem InRotation.checkInput (h : InRotation cfg log₀ t mode first ws noSkip tested s)
    (hinp : noSkip → inp.NoSkip) (hrestart : (checkInput cfg s inp.menus).restart = false) :
    InRotation cfg log₀ t mode first ws noSkip tested (checkInput cfg s inp.menus) := by
  obtain ⟨hconfig, hmode⟩ := (checkInput_keep cfg s inp.menus).resolve_left (by simp [hrestart])
  refine h.mono hconfig hmode (by simp) (by simp) (by simp) (by simp [h.startRun])
    (by simp [h.startTest]) (MenuStep.checkInput cfg s inp.menus).bail (fun hno => ?_)
    ((checkInput_log cfg s inp.menus).trans (List.append_nil _).symm)
    (fun e he => absurd he List.not_mem_nil) (List.append_nil _).symm
  by_contra hbail
  obtain hb | hr := checkInput_skip (hinp hno) (by simpa using hbail)
  · exact Bool.false_ne_true ((h.bail hno).symm.trans hb)
  · exact Bool.false_ne_true (hrestart.symm.trans hr)

theorem TestOver.nextTest {next : ℕ} (h : TestLog t (Tested ws s.bail)
      (cfg.testRounds mode t first) OutsideTest log₀ (s.afterStage 0 next).log)
    (hcpuMode : s.cpuMode = mode) (hmaster : mode = .seq → next = 0)
    (hbail : noSkip → s.bail = false) (inp : Input) :
    TestOver cfg log₀ t mode first ws noSkip (nextTest inp (s.afterStage 0 next)).1 := by
  obtain ⟨events, hlog, hevents⟩ := nextTest_events inp (s.afterStage 0 next)
  have hb : (Memtest.nextTest inp (s.afterStage 0 next)).1.bail = s.bail := nextTest_bail inp _
  obtain ⟨_, _, _, _, _, _, _, heq, -⟩ := nextTest_eq inp (s.afterStage 0 next)
  refine ⟨?_, fun hmode => ?_, ?_, fun hno => hb.trans (hbail hno), ?_⟩
  · rw [heq]
    exact hcpuMode
  · rw [heq]
    exact hmaster hmode
  · rw [heq]
  · rw [hlog, hb]
    exact h.append fun tail htail => htail.append hevents

/-- The end of a trip in the middle of a test: the test goes on with the next stage, or it is over,
or the user wants a restart. -/
theorem InRotation.epilogue (h : InRotation cfg log₀ t mode first ws noSkip tested s)
    (htested : Tested ws s.bail tested)
    (hmaster : s.masterCpu < cfg.numAvailableCpus ∧ cfg.disabled s.masterCpu = false)
    (hinp : noSkip → inp.NoSkip) :
    InRotation cfg log₀ t mode first ws noSkip [] (epilogue cfg inp s).1 ∧
        (epilogue cfg inp s).2 = .loopTop ∧ (epilogue cfg inp s).1.rerunTest = true ∧
        SameWindows s (epilogue cfg inp s).1 ∧ ((epilogue cfg inp s).1.startPass = true →
          (Memtest.checkInput cfg s inp.menus).startPass = true ∧
            (Memtest.checkInput cfg s inp.menus).restart = false) ∨
      TestOver cfg log₀ t mode first ws noSkip (epilogue cfg inp s).1 ∨
      (epilogue cfg inp s).1.log = s.log ++ [.restart] ∧
        (epilogue cfg inp s).1.startRun = true ∧ (epilogue cfg inp s).2 = .loopTop := by
  obtain ⟨s₁, hs₁⟩ : ∃ s₁, s₁ = Memtest.checkInput cfg s inp.menus := ⟨_, rfl⟩
  have h₁ : s₁.restart = false → InRotation cfg log₀ t mode first ws noSkip tested s₁ :=
    hs₁ ▸ h.checkInput hinp
  have htested₁ : Tested ws s₁.bail tested :=
    htested.mono (hs₁ ▸ (MenuStep.checkInput cfg s inp.menus).bail)
  have hsame : s₁.restart = false → SameWindows s s₁ := fun hrestart => by
    have hkeep := checkInput_keep cfg s inp.menus
    rw [← hs₁] at hkeep
    exact ⟨(hkeep.resolve_left (by simp [hrestart])).1.limits, by rw [hs₁, checkInput_testNum],
      by rw [hs₁, checkInput_dummyRun]⟩
  have hmaster₁ : s₁.masterCpu < cfg.numAvailableCpus ∧ cfg.disabled s₁.masterCpu = false := by
    rw [hs₁, checkInput_masterCpu]
    exact hmaster
  obtain ⟨-, heq⟩ | ⟨hrestart, henabled, heq⟩ | ⟨hrestart, -, heq⟩ := epilogue_cases cfg inp s hs₁
  · rw [heq]
    exact .inr (.inr ⟨by simp [hs₁], rfl, rfl⟩)
  · have h₁ := h₁ hrestart
    rw [h₁.testNum, h₁.enabled] at henabled
    exact absurd henabled.symm Bool.false_ne_true
  have h₁ := h₁ hrestart
  obtain ⟨hlt, heq'⟩ | ⟨hstages, hrot, hne, heq'⟩ | ⟨next, hstages, hleaves, heq'⟩ :=
    endStage_cases cfg inp s₁
  · rw [heq, heq']
    rw [← hs₁]
    obtain ⟨hlimits, htest, hdummy⟩ := hsame hrestart
    refine .inl ⟨?_, rfl, rfl, ⟨hlimits, htest, hdummy⟩, fun hpass => ⟨hpass, hrestart⟩⟩
    exact ⟨h₁.testNum, h₁.enabled, h₁.cpuMode, h₁.testNum ▸ hlt, h₁.startRun, h₁.startTest,
      h₁.first, h₁.rotates, h₁.bail,
      h₁.afterStage_log htested₁ (.nil _ _ _) (s₁.testStage + 1) s₁.masterCpu⟩
  · rw [heq, heq']
    have hnext : cfg.IsNextMaster s₁.masterCpu (selectNextMaster cfg s₁).masterCpu :=
      selectNextMaster_isNextMaster hmaster₁.1
    have hrounds := hnext.rounds (cfg.testPattern t).stages hmaster₁.1 h₁.first hmaster₁.2
    rw [if_neg hne] at hrounds
    have hlog := h₁.afterStage_log htested₁
      (StageSoFar.nil t 0 (selectNextMaster cfg s₁).masterCpu) 0
      (selectNextMaster cfg s₁).masterCpu
    rw [h₁.lastStage hstages, hrounds] at hlog
    rw [← hs₁]
    obtain ⟨hlimits, htest, hdummy⟩ := hsame hrestart
    refine .inl ⟨?_, rfl, rfl, ⟨hlimits, htest, hdummy⟩, fun hpass => ⟨hpass, hrestart⟩⟩
    exact ⟨h₁.testNum, h₁.enabled, h₁.cpuMode, Nat.zero_lt_of_lt h₁.testStage, h₁.startRun,
      h₁.startTest, h₁.first.trans (hnext.lt hne).le, .inl hrot, h₁.bail, hlog⟩
  · rw [heq, heq']
    have hlog := h₁.afterStage_log htested₁ OutsideTest.nil 0 next
    rw [h₁.lastStage hstages, h₁.rounds hmaster₁ hleaves] at hlog
    refine .inr (.inl (TestOver.nextTest hlog h₁.cpuMode (fun hmode => ?_) h₁.bail inp))
    have hseq := h₁.cpuMode.trans hmode
    obtain ⟨-, hzero, -⟩ | ⟨hone, -⟩ | ⟨hpar, -⟩ := hleaves
    · exact hzero
    · exact absurd (hone.symm.trans hseq) nofun
    · exact absurd (hpar.symm.trans hseq) nofun

/-- A test is being run, and its stage has come to some window. -/
def RunsStage (cfg : MainConfig) (log₀ : List MainEvent) (t : ℤ) (mode : CpuMode) (first : ℕ)
    (ws : List ℕ) (noSkip : Prop) (u : MainState × CpuState) : Prop :=
  ∃ tested, InRotation cfg log₀ t mode first ws noSkip tested u.1 ∧
    StageProgress cfg ws tested u.1 u.2

/-- A step of a trip in front of its epilogue. -/
theorem RunsStage.mainStep (h : RunsStage cfg log₀ t mode first ws noSkip (s, l))
    (hl : l.point ≠ .testDone) (hpass : l.point = .loopTop → s.startPass = false)
    (htest : (∃ target, l.point = .runAt target) →
      s.testNum = s.testSequence.read inp.beyond s.testNumIndex)
    (hinp : noSkip → inp.NoSkip) (hstep : Memtest.mainStep cfg inp (s, l) = some (s', l'))
    (hrestart : s'.restart = false) : RunsStage cfg log₀ t mode first ws noSkip (s', l') := by
  obtain ⟨tested, hrot, hprogress⟩ := h
  have henabled : s.enabled s.testNum = true := by rw [hrot.testNum, hrot.enabled]
  obtain ⟨hp, rfl, hl'⟩ | ⟨hp, hteststep, -⟩ | ⟨hp, rfl, -⟩ | ⟨hp, -⟩ := mainStep_cases hstep
  · exact ⟨tested, hrot.prologue inp.beyond (hpass hp),
      hprogress.prologue hp inp.beyond hrot.startRun (hpass hp) hrot.startTest hl'⟩
  · obtain ⟨events, hlog, hprogress'⟩ :=
      hprogress.mainStep henabled (.inl hp) htest hstep hrestart
    exact ⟨_, hrot.testStep hteststep hinp hrestart hlog, hprogress'⟩
  · obtain ⟨events, hlog, hprogress'⟩ :=
      hprogress.mainStep henabled (.inr hp) htest hstep hrestart
    obtain rfl := List.append_cancel_left ((s.fetchTest_log inp.beyond).symm.trans hlog)
    rw [show runWindows [.readSequence s.testNumIndex] = [] from rfl, List.append_nil]
      at hprogress'
    exact ⟨tested, hrot.fetchTest _ (htest hp), hprogress'⟩
  · exact absurd hp hl

/-- The epilogue of a trip: the next stage begins with its first window. -/
theorem RunsStage.epilogue (h : RunsStage cfg log₀ t mode first ws noSkip (s, l))
    (hl : l.point = .testDone)
    (hmaster : s.masterCpu < cfg.numAvailableCpus ∧ cfg.disabled s.masterCpu = false)
    (hinp : noSkip → inp.NoSkip) (heq : Memtest.epilogue cfg inp s = (s', l'.point)) :
    RunsStage cfg log₀ t mode first ws noSkip (s', l') ∧ l'.point = .loopTop ∧
        SameWindows s s' ∧ (s'.startPass = true → (checkInput cfg s inp.menus).startPass = true ∧
          (checkInput cfg s inp.menus).restart = false) ∨
      TestOver cfg log₀ t mode first ws noSkip s' ∨
      s'.log = s.log ++ [.restart] ∧ s'.startRun = true ∧ l'.point = .loopTop := by
  obtain ⟨tested, hrot, hprogress⟩ := h
  have htested := hprogress.progress
  rw [hl] at htested
  have hnext := hrot.epilogue htested hmaster hinp
  rw [heq] at hnext
  refine hnext.imp_left ?_
  rintro ⟨hrot', hl', hrerun, hsame, hpass⟩
  refine ⟨⟨[], hrot', ?_⟩, hl', hsame, hpass⟩
  refine ⟨(hsame.testedWindows_eq cfg).trans hprogress.windows, fun hpoint => ?_,
    fun hne => absurd hl' hne, ?_⟩
  · simp [show l'.point = .loopTop from hl'] at hpoint
  · rw [show l'.point = .loopTop from hl', ProgressAt, if_pos hrerun]

theorem TestLog.prefix {rounds : List (ℕ × ℕ)} (h : TestLog t complete rounds rest log₀ log) :
    log₀ <+: log := by
  obtain ⟨head, stages, tail, rfl, -, -, -⟩ := h
  exact List.prefix_append _ _

theorem RunsStage.prefix {u : MainState × CpuState}
    (h : RunsStage cfg log₀ t mode first ws noSkip u) : log₀ <+: u.1.log := by
  obtain ⟨tested, hrot, -⟩ := h
  exact hrot.log.prefix

/-- A test from its start to the next start: it is being run, or a restart is pending, or it is
over, or the restart has been made. -/
def TestRun (cfg : MainConfig) (log₀ : List MainEvent) (t : ℤ) (mode : CpuMode) (first : ℕ)
    (ws : List ℕ) (noSkip : Prop) (u : MainState × CpuState) : Prop :=
  (u.1.restart = false ∧ RunsStage cfg log₀ t mode first ws noSkip u ∧ u.1.startPass = false ∧
      u.2.point ≠ .finished) ∨
    (u.1.restart = true ∧ log₀ <+: u.1.log) ∨
    (TestOver cfg log₀ t mode first ws noSkip u.1 ∧
      (u.2.point = .loopTop ∨ u.2.point = .finished)) ∨
    ∃ events, u.1.log = log₀ ++ events ∧ .restart ∈ events ∧ u.1.startRun = true ∧
      u.2.point = .loopTop

/-- A restart that is pending is made at the end of the trip. -/
theorem Sound.mainStep_restart (h : Sound cfg s l.point) (hrestart : s.restart = true)
    (hstep : Memtest.mainStep cfg inp (s, l) = some (s', l')) :
    (s'.restart = true ∧ s'.log = s.log) ∨
      (s'.log = s.log ++ [.restart] ∧ s'.startRun = true ∧ l'.point = .loopTop) := by
  obtain hp | hp := h.restart hrestart
  · simp only [Memtest.mainStep, segment, hp, chooseWindow, h.bail hrestart, if_true,
      Option.some.injEq, Prod.mk.injEq] at hstep
    exact .inl (hstep.1 ▸ ⟨hrestart, rfl⟩)
  · have hr := (MenuStep.checkInput cfg s inp.menus).restart hrestart
    simp only [Memtest.mainStep, segment, hp, if_true, epilogue, hr, Option.some.injEq,
      Prod.mk.injEq] at hstep
    obtain ⟨rfl, rfl⟩ := hstep
    exact .inr ⟨by simp, rfl, rfl⟩

/-- A step of a test. -/
theorem TestRun.mainStep (h : TestRun cfg log₀ t mode first ws noSkip (s, l))
    (hsound : Sound cfg s l.point) (hsched : Scheduled s l.point) (hinp : inp.Regular)
    (hno : noSkip → inp.NoSkip) (hstart : ¬AboutToStart (s, l))
    (hstep : Memtest.mainStep cfg inp (s, l) = some (s', l')) :
    TestRun cfg log₀ t mode first ws noSkip (s', l') := by
  obtain ⟨hrestart, hrot, hpass, -⟩ | ⟨hrestart, hlog⟩ | ⟨hover, hpoint⟩ |
      ⟨-, -, -, hrun, hpoint⟩ :=
    h
  · have hread : (∃ target, l.point = .runAt target) →
        s.testNum = s.testSequence.read inp.beyond s.testNumIndex := by
      rintro ⟨target, hl⟩
      have hin := (hsched.inPass.resolve_left (by simp [show s.restart = false from hrestart])
        ).resolve_right fun h => h.1.elim (by simp [hl]) (by simp [hl])
      exact hin.testNum _
    have hnext : l.point ≠ .testDone → s'.restart = false →
        RunsStage cfg log₀ t mode first ws noSkip (s', l') := fun hne hr =>
      hrot.mainStep hne (fun _ => hpass) hread hno hstep hr
    obtain ⟨hl, rfl, hl'⟩ | ⟨hl, htest, hl'⟩ | ⟨⟨target, hl⟩, rfl, hl'⟩ | ⟨hl, heq⟩ :=
      mainStep_cases hstep
    · have hr : (prologue inp.beyond s).restart = false := (prologue_flags _ _).1.trans hrestart
      exact .inl ⟨hr, hnext (by simp [hl]) hr, (prologue_clears _ s).2.1, by simp [hl']⟩
    · have hne : l.point ≠ .testDone := fun heq => by
        rw [heq] at hl
        exact hl
      cases hr : s'.restart with
      | true => exact .inr (.inl ⟨hr, hrot.prefix.trans (mainStep_log hstep)⟩)
      | false =>
        refine .inl ⟨hr, hnext hne hr, ?_, hl'.2.2⟩
        by_contra hpass'
        obtain h | h := htest.startPass hinp.noRejectedSequence (by simpa using hpass')
        · exact absurd (h.symm.trans hpass) nofun
        · exact absurd (h.symm.trans hr) nofun
    · exact .inl ⟨hrestart, hnext (by simp [hl]) hrestart, hpass, by simp [hl']⟩
    · obtain ⟨hr, -, hpoint⟩ := epilogue_flags inp hsound.masterCpu
      rw [heq] at hr hpoint
      obtain ⟨hrot', hl', -, hpass'⟩ | hover | ⟨hlog, hrun, hl'⟩ :=
        hrot.epilogue hl hsound.masterCpu hno heq
      · refine .inl ⟨hr, hrot', ?_, by simp [show l'.point = .loopTop from hl']⟩
        by_contra hp
        obtain ⟨hp, hr'⟩ := hpass' (by simpa using hp)
        obtain h | h := checkInput_startPass hinp.noRejectedSequence hp
        · exact absurd (h.symm.trans hpass) nofun
        · exact absurd (h.symm.trans hr') nofun
      · exact .inr (.inr (.inl ⟨hover, hpoint⟩))
      · obtain ⟨events, hevents⟩ := hrot.prefix
        exact .inr (.inr (.inr ⟨events ++ [.restart],
          by rw [hlog, ← hevents, List.append_assoc], by simp, hrun, hl'⟩))
  · obtain ⟨hr, hlog'⟩ | ⟨hlog', hrun, hl'⟩ := hsound.mainStep_restart hrestart hstep
    · exact .inr (.inl ⟨hr, hlog' ▸ hlog⟩)
    · obtain ⟨events, hevents⟩ := hlog
      exact .inr (.inr (.inr ⟨events ++ [.restart],
        by rw [hlog', ← hevents, List.append_assoc], by simp, hrun, hl'⟩))
  · obtain hpoint | hpoint := hpoint
    · exact absurd ⟨hpoint, .inr (.inr hover.startTest)⟩ hstart
    · replace hpoint : l.point = .finished := hpoint
      simp [Memtest.mainStep, segment, hpoint] at hstep
  · exact absurd ⟨hpoint, .inl hrun⟩ hstart

end

/-! ### Consecutive starts -/

/-- The test that starts next. -/
def testToStart (s : MainState) : ℤ := (prologue 0 s).testNum

/-- Two starts of tests with none in between. -/
structure ConsecutiveStarts (cfg : MainConfig) (inps : List Input)
    (t₀ t₁ : MainState × CpuState) : Prop where
  start : AboutToStart t₀
  nonempty : inps ≠ []
  run : mainRun cfg inps t₀ = some t₁
  next : AboutToStart t₁
  between : ∀ before inp after t, inps = before ++ inp :: after → before ≠ [] →
    mainRun cfg before t₀ = some t → ¬AboutToStart t

theorem testPattern_stages_pos (cfg : MainConfig) {t : ℤ}
    (h : 0 ≤ t ∧ t < (numTestPatterns : ℤ)) : 0 < (cfg.testPattern t).stages := by
  obtain ⟨n, rfl⟩ := Int.eq_ofNat_of_zero_le h.1
  have hn : n < testList.length := Int.ofNat_lt.mp h.2
  have hall : ∀ pattern ∈ testList, 0 < pattern.stages := by decide
  rw [MainConfig.testPattern, if_pos h.1, Int.toNat_natCast, List.getD_eq_getElem?_getD,
    List.getElem?_eq_getElem hn, Option.getD_some]
  exact hall _ (List.getElem_mem hn)

/-- The prologue of a start, in the order of its events. -/
theorem prologue_of_start (beyond : ℤ) (h : s.startRun = true ∨ s.startPass = true ∨
    s.startTest = true) :
    (prologue beyond s).testNum = testToStart s ∧
      ∃ head, (prologue beyond s).log = s.log ++ (head ++ startEvents s (testToStart s)) ∧
        ∀ e ∈ head, e.OutsideTest := by
  by_cases hpass : s.startRun = true ∨ s.startPass = true
  · have hread : s.testSequence.read 0 0 = s.testSequence.read beyond 0 :=
      s.testSequence.read_eq 0 beyond (Nat.zero_lt_succ 11)
    rw [testToStart, prologue_of_startPass beyond hpass, prologue_of_startPass 0 hpass, hread]
    exact ⟨rfl, [_, _], rfl, by simp [MainEvent.OutsideTest]⟩
  · obtain ⟨hrun, hpass⟩ := not_or.mp hpass
    have htest := (h.resolve_left hrun).resolve_left hpass
    rw [Bool.not_eq_true] at hrun hpass
    rw [testToStart, prologue_of_startTest beyond hrun hpass htest,
      prologue_of_startTest 0 hrun hpass htest]
    exact ⟨rfl, [], rfl, by simp⟩

/-- The other fields after the prologue of a start. -/
theorem prologue_of_start_fields (beyond : ℤ) (h : s.startRun = true ∨ s.startPass = true ∨
    s.startTest = true) :
    (prologue beyond s).testStage = 0 ∧ (prologue beyond s).cpuMode = s.cpuMode ∧
      (prologue beyond s).enabled = s.enabled ∧ (prologue beyond s).startRun = false ∧
      (prologue beyond s).startPass = false ∧ (prologue beyond s).startTest = false := by
  by_cases hpass : s.startRun = true ∨ s.startPass = true
  · rw [prologue_of_startPass beyond hpass]
    exact ⟨rfl, rfl, rfl, rfl, rfl, rfl⟩
  · obtain ⟨hrun, hpass⟩ := not_or.mp hpass
    have htest := (h.resolve_left hrun).resolve_left hpass
    rw [Bool.not_eq_true] at hrun hpass
    rw [prologue_of_startTest beyond hrun hpass htest]
    exact ⟨rfl, rfl, rfl, hrun, hpass, rfl⟩

/-- A start takes the window loop back to the first window. -/
theorem prologue_of_start_window (beyond : ℤ) (h : s.startRun = true ∨ s.startPass = true ∨
    s.startTest = true) :
    (prologue beyond s).bail = false ∧ (prologue beyond s).windowNum = 0 := by
  by_cases hpass : s.startRun = true ∨ s.startPass = true
  · rw [prologue_of_startPass beyond hpass]
    exact ⟨rfl, rfl⟩
  · obtain ⟨hrun, hpass⟩ := not_or.mp hpass
    have htest := (h.resolve_left hrun).resolve_left hpass
    rw [Bool.not_eq_true] at hrun hpass
    rw [prologue_of_startTest beyond hrun hpass htest]
    exact ⟨rfl, rfl⟩

/-- An enabled test starts with its first stage. -/
theorem InRotation.start (beyond : ℤ) (h : s.startRun = true ∨ s.startPass = true ∨
      s.startTest = true)
    (henabled : s.enabled (testToStart s) = true)
    (hrange : 0 ≤ testToStart s ∧ testToStart s < (numTestPatterns : ℤ)) (ws : List ℕ)
    (noSkip : Prop) : InRotation cfg s.log (testToStart s) s.cpuMode s.masterCpu ws noSkip []
      (Memtest.prologue beyond s) := by
  obtain ⟨htest, head, hlog, hhead⟩ := prologue_of_start beyond h
  obtain ⟨hstage, hmode, hen, hrun, -, hstart⟩ := prologue_of_start_fields beyond h
  have hmaster := (prologue_flags beyond s).2
  refine ⟨htest, by rw [hen, henabled], hmode, hstage ▸ testPattern_stages_pos cfg hrange, hrun,
    hstart, hmaster.ge, .inr hmaster, fun _ => (prologue_of_start_window beyond h).1,
    head ++ [.indexTest (testToStart s)], [], [], ?_,
    OutsideTest.append hhead (by simp [OutsideTest, MainEvent.OutsideTest]), ?_, .nil _ _ _⟩
  · rw [hlog, startEvents, if_pos henabled]
    simp
  · rw [hstage, hmaster, MainConfig.roundsBefore, cfg.masters_self]
    exact .nil

/-- The first stage begins with the first window. -/
theorem RunsStage.start (beyond : ℤ) (h : s.startRun = true ∨ s.startPass = true ∨
      s.startTest = true)
    (henabled : s.enabled (testToStart s) = true)
    (hrange : 0 ≤ testToStart s ∧ testToStart s < (numTestPatterns : ℤ)) (noSkip : Prop)
    (hl : l.point = .testReady) : RunsStage cfg s.log (testToStart s) s.cpuMode s.masterCpu
      (cfg.testedWindows s (testToStart s)) noSkip (Memtest.prologue beyond s, l) := by
  have hnum := (prologue_of_start_window beyond h).2
  obtain ⟨hlimits, hdummy⟩ := prologue_settings beyond s
  have htest := (prologue_of_start beyond h).1
  have hwindows : cfg.testedWindows (prologue beyond s) (prologue beyond s).testNum =
      cfg.testedWindows s (testToStart s) := by
    rw [MainConfig.testedWindows, MainConfig.testedWindows, hlimits, hdummy, htest]
  refine ⟨[], .start beyond h henabled hrange _ noSkip, hwindows, by simp [CpuState.RunsTest, hl],
    fun _ => rfl, ?_⟩
  rw [hl]
  exact BeforeWindow.first hwindows hnum

/-- What is known of every state of a regular run. -/
structure Regular (cfg : MainConfig) (t : MainState × CpuState) : Prop where
  sound : Sound cfg t.1 t.2.point
  scheduled : Scheduled t.1 t.2.point

theorem Regular.mainStep {t t' : MainState × CpuState} (h : Regular cfg t)
    (hbeyond : (numTestPatterns : ℤ) ≤ inp.beyond)
    (hstep : Memtest.mainStep cfg inp t = some t') : Regular cfg t' :=
  ⟨h.sound.mainStep hstep, h.scheduled.mainStep hbeyond hstep⟩

theorem Reachable.regular {P : Input → Prop}
    (hP : ∀ inp, P inp → (numTestPatterns : ℤ) ≤ inp.beyond)
    {t : MainState × CpuState} (h : Reachable cfg P t) : Regular cfg t :=
  h.induct (fun _ h₀ => ⟨h₀.sound, h₀.scheduled⟩)
    fun inp _ _ hinp h hstep => h.mainStep (hP inp hinp) hstep

/-- The run of an enabled test, from its start to the next or to the end of the last pass. -/
theorem testRun_of_starts {inps : List Input} {t₀ t₁ : MainState × CpuState}
    (hreg : Regular cfg t₀) (hinps : ∀ inp ∈ inps, inp.Regular) {noSkip : Prop}
    (hno : ∀ inp ∈ inps, noSkip → inp.NoSkip) (hstart : AboutToStart t₀)
    (hne : inps ≠ []) (hrun : mainRun cfg inps t₀ = some t₁)
    (hbetween : ∀ before inp after t, inps = before ++ inp :: after → before ≠ [] →
      mainRun cfg before t₀ = some t → ¬AboutToStart t)
    (henabled : t₀.1.enabled (testToStart t₀.1) = true) :
    Regular cfg t₁ ∧ TestRun cfg t₀.1.log (testToStart t₀.1) t₀.1.cpuMode t₀.1.masterCpu
      (cfg.testedWindows t₀.1 (testToStart t₀.1)) noSkip t₁ := by
  obtain ⟨inp₀, inps, rfl⟩ := List.exists_cons_of_ne_nil hne
  obtain ⟨u, hu, hrun⟩ := Executions.exec_cons_eq_some.mp hrun
  have hregu := hreg.mainStep (hinps inp₀ List.mem_cons_self).beyond hu
  have hprologue := mainStep_loopTop hstart.1 hu
  have hrange : 0 ≤ testToStart t₀.1 ∧ testToStart t₀.1 < (numTestPatterns : ℤ) := by
    have hin := hregu.scheduled.inRange.resolve_right fun h => h.1.elim (by simp [hprologue.2])
      (by simp [hprologue.2])
    rw [hprologue.1, (prologue_of_start inp₀.beyond hstart.2).1] at hin
    exact hin.2
  have hrot : RunsStage cfg t₀.1.log (testToStart t₀.1) t₀.1.cpuMode t₀.1.masterCpu
      (cfg.testedWindows t₀.1 (testToStart t₀.1)) noSkip u := by
    rw [← Prod.eta u, hprologue.1]
    exact .start inp₀.beyond hstart.2 henabled hrange noSkip hprologue.2
  have hrestart : u.1.restart = false := hregu.sound.restart_eq (by simp [hprologue.2])
    (by simp [hprologue.2])
  refine Executions.exec_invariant
    (P := fun inp t => (inp.Regular ∧ (noSkip → inp.NoSkip)) ∧ ¬AboutToStart t)
    (I := fun t => Regular cfg t ∧ TestRun cfg t₀.1.log (testToStart t₀.1) t₀.1.cpuMode
      t₀.1.masterCpu (cfg.testedWindows t₀.1 (testToStart t₀.1)) noSkip t)
    (fun inp t t' hP hI hstep => ⟨hI.1.mainStep hP.1.1.beyond hstep,
      hI.2.mainStep hI.1.sound hI.1.scheduled hP.1.1 hP.1.2 hP.2 hstep⟩)
    (fun before inp after t heq ht =>
      ⟨⟨hinps inp (by simp [heq]), hno inp (by simp [heq])⟩, ?_⟩)
    ⟨hregu, .inl ⟨hrestart, hrot, ?_, by simp [hprologue.2]⟩⟩ hrun
  · exact hbetween (inp₀ :: before) inp after t (by rw [heq, List.cons_append]) (by simp)
      (Executions.exec_cons_eq_some.mpr ⟨u, hu, ht⟩)
  · rw [hprologue.1]
    exact (prologue_clears _ _).2.1

/-! ### The first master -/

/-- In SEQ mode the master is CPU 0, except in the course of an enabled test. -/
structure SeqReady (t : MainState × CpuState) : Prop where
  flags : t.2.point ≠ .loopTop → t.2.point ≠ .finished → t.1.restart = true ∨
    t.1.startRun = false ∧ t.1.startPass = false ∧ t.1.startTest = false
  master : t.1.cpuMode = .seq → t.1.restart = true ∨ t.1.masterCpu = 0 ∨
    ¬AboutToStart t ∧ t.1.enabled t.1.testNum = true

theorem not_aboutToStart (h : l.point ≠ .loopTop) : ¬AboutToStart (s, l) :=
  fun hstart => h hstart.1

/-- CPU 0 leaves a test with itself as the master. -/
theorem SeqReady.nextTest {s₂ : MainState} (hmode : s₂.cpuMode = .seq → s₂.masterCpu = 0)
    (heq : nextTest inp s₂ = (s', l'.point)) : SeqReady (s', l') := by
  obtain ⟨-, hmaster, hpoint⟩ := nextTest_flags inp s₂
  have hcpuMode : (Memtest.nextTest inp s₂).1.cpuMode = s₂.cpuMode := by
    obtain ⟨_, _, _, _, _, _, _, heq, -⟩ := nextTest_eq inp s₂
    rw [heq]
  rw [heq] at hmaster hpoint hcpuMode
  exact ⟨fun hne hne' => absurd hpoint (not_or.mpr ⟨hne, hne'⟩),
    fun h => .inr (.inl (hmaster.trans (hmode (hcpuMode.symm.trans h))))⟩

theorem SeqReady.epilogue (h : SeqReady (s, l)) (hl : l.point = .testDone)
    (hinp : inp.NoRejectedSequence) (heq : epilogue cfg inp s = (s', l'.point)) :
    SeqReady (s', l') := by
  obtain ⟨s₁, hs₁⟩ : ∃ s₁, s₁ = checkInput cfg s inp.menus := ⟨_, rfl⟩
  have hkeep := checkInput_keep cfg s inp.menus
  have hpass : s₁.startPass = true → s.startPass = true ∨ s₁.restart = true :=
    hs₁ ▸ checkInput_startPass hinp
  have hmono := (MenuStep.checkInput cfg s inp.menus).restart
  rw [← hs₁] at hkeep hmono
  obtain ⟨-, heq'⟩ | ⟨hrestart, henabled, heq'⟩ | ⟨hrestart, henabled, heq'⟩ :=
    epilogue_cases cfg inp s hs₁
  · obtain ⟨rfl, hl'⟩ := Prod.mk.inj (heq.symm.trans heq')
    exact ⟨fun hne => absurd hl' hne, fun _ => .inr (.inl rfl)⟩
  all_goals
    have hnot : ¬s₁.restart = true := by simp [hrestart]
    obtain ⟨hconfig, hmode⟩ := hkeep.resolve_left hnot
    have hs : ¬s.restart = true := fun hr => hnot (hmono hr)
    have htest : s₁.testNum = s.testNum := by rw [hs₁, checkInput_testNum]
    have hmaster : s₁.masterCpu = s.masterCpu := by rw [hs₁, checkInput_masterCpu]
  · refine SeqReady.nextTest (fun hseq => ?_) (heq'.symm.trans heq)
    obtain hr | hzero | ⟨-, hen⟩ := h.master (hmode.symm.trans hseq)
    · exact absurd hr hs
    · exact hmaster.trans hzero
    · rw [hconfig.enabled, htest] at henabled
      exact absurd (hen.symm.trans henabled) nofun
  · obtain ⟨hrun, hpass', hstart⟩ := (h.flags (by simp [hl]) (by simp [hl])).resolve_left hs
    have hrun₁ : s₁.startRun = false := by rw [hs₁, checkInput_startRun, hrun]
    have hstart₁ : s₁.startTest = false := by rw [hs₁, checkInput_startTest, hstart]
    have hpass₁ : s₁.startPass = false := by
      by_contra hp
      obtain hp | hr := hpass (by simpa using hp)
      · exact absurd (hp.symm.trans hpass') nofun
      · exact hnot hr
    have hagain : ∀ testStage masterCpu, SeqReady ({ s₁.afterStage testStage masterCpu with
        rerunTest := true }, l') := fun _ _ =>
      ⟨fun _ _ => .inr ⟨hrun₁, hpass₁, hstart₁⟩, fun _ => .inr (.inr ⟨fun hstart =>
        (hstart.2.elim (fun h => absurd (h.symm.trans hrun₁) nofun) fun h => h.elim
          (fun h => absurd (h.symm.trans hpass₁) nofun)
          fun h => absurd (h.symm.trans hstart₁) nofun), henabled⟩)⟩
    obtain ⟨-, heq''⟩ | ⟨-, -, -, heq''⟩ | ⟨next, -, hleaves, heq''⟩ := endStage_cases cfg inp s₁
    · obtain ⟨rfl, -⟩ := Prod.mk.inj (heq.symm.trans (heq'.trans heq''))
      exact hagain _ _
    · obtain ⟨rfl, -⟩ := Prod.mk.inj (heq.symm.trans (heq'.trans heq''))
      exact hagain _ _
    · refine SeqReady.nextTest (fun hseq => ?_) ((heq'.trans heq'').symm.trans heq)
      obtain ⟨-, hzero, -⟩ | ⟨hone, -⟩ | ⟨hpar, -⟩ := hleaves
      · exact hzero
      · exact absurd (hone.symm.trans hseq) nofun
      · exact absurd (hpar.symm.trans hseq) nofun

theorem SeqReady.mainStep {t t' : MainState × CpuState} (h : SeqReady t) (hreg : Regular cfg t)
    (hinp : inp.Regular) (hstep : Memtest.mainStep cfg inp t = some t') : SeqReady t' := by
  obtain ⟨s, l⟩ := t
  obtain ⟨s', l'⟩ := t'
  obtain ⟨hl, rfl, hl'⟩ | ⟨hl, htest, hl'⟩ | ⟨⟨target, hl⟩, rfl, hl'⟩ | ⟨hl, heq⟩ :=
    mainStep_cases hstep
  · refine ⟨fun _ _ => .inr (prologue_clears _ s), fun hseq => .inr ?_⟩
    by_cases hstart : AboutToStart (s, l)
    · have hmode := (prologue_of_start_fields inp.beyond hstart.2).2.1
      obtain hr | hzero | ⟨hnot, -⟩ := h.master (hmode.symm.trans hseq)
      · have hrestart := hreg.sound.restart_eq (by simp [hl]) (by simp [hl])
        exact absurd (hr.symm.trans hrestart) nofun
      · exact .inl ((prologue_flags _ _).2.trans hzero)
      · exact absurd hstart hnot
    · obtain ⟨hrun, hnot⟩ := not_or.mp (not_and.mp hstart hl)
      obtain ⟨hpass, hnext⟩ := not_or.mp hnot
      rw [prologue_of_resume inp.beyond (by simpa using hrun) (by simpa using hpass)
        (by simpa using hnext)] at hseq ⊢
      have hsame : (beginStage s).cpuMode = s.cpuMode ∧ (beginStage s).masterCpu = s.masterCpu ∧
          (beginStage s).enabled (beginStage s).testNum = s.enabled s.testNum := by
        rw [beginStage]
        split_ifs <;> exact ⟨rfl, rfl, rfl⟩
      obtain ⟨hmode, hmaster, hen⟩ := hsame
      obtain hr | hzero | ⟨-, henabled⟩ := h.master (hmode.symm.trans hseq)
      · have hrestart := hreg.sound.restart_eq (by simp [hl]) (by simp [hl])
        exact absurd (hr.symm.trans hrestart) nofun
      · exact .inl (hmaster.trans hzero)
      · exact .inr ⟨not_aboutToStart (by simp [hl']), hen.trans henabled⟩
  · have hpoint : l.point ≠ .loopTop ∧ l.point ≠ .finished := by
      constructor <;> intro heq <;> rw [heq] at hl <;> exact hl
    refine ⟨fun _ _ => ?_, fun hseq => ?_⟩
    · cases hr : s'.restart with
      | true => exact .inl rfl
      | false =>
        have hs : ¬s.restart = true := fun hrs => by simp [htest.restart hrs] at hr
        obtain ⟨hrun, hpass, hstart⟩ := (h.flags hpoint.1 hpoint.2).resolve_left hs
        refine .inr ⟨htest.startRun.trans hrun, ?_, htest.startTest.trans hstart⟩
        by_contra hp
        obtain hp | hr' := htest.startPass hinp.noRejectedSequence (by simpa using hp)
        · exact absurd (hp.symm.trans hpass) nofun
        · exact absurd (hr'.symm.trans hr) nofun
    · obtain hr | ⟨hconfig, hmode⟩ := htest.keep
      · exact .inl hr
      obtain hr | hzero | ⟨-, henabled⟩ := h.master (hmode.symm.trans hseq)
      · exact .inl (htest.restart hr)
      · exact .inr (.inl (htest.masterCpu.trans hzero))
      · refine .inr (.inr ⟨not_aboutToStart hl'.1, ?_⟩)
        rw [hconfig.enabled, htest.testNum]
        exact henabled
  · have hrestart : s.restart = false := hreg.sound.restart_eq (by simp [hl]) (by simp [hl])
    have hin := (hreg.scheduled.inPass.resolve_left (by simp [hrestart])).resolve_right
      fun h => h.1.elim (by simp [hl]) (by simp [hl])
    obtain ⟨hrun, hpass, hstart⟩ :=
      (h.flags (by simp [hl]) (by simp [hl])).resolve_left (by simp [hrestart])
    refine ⟨fun hne => absurd hl' hne, fun hseq => .inr ?_⟩
    obtain hr | hzero | ⟨-, henabled⟩ := h.master hseq
    · exact absurd (hr.symm.trans hrestart) nofun
    · exact .inl hzero
    · refine .inr ⟨fun hstart' => ?_, ?_⟩
      · obtain h | h | h := hstart'.2
        · exact absurd (h.symm.trans hrun) nofun
        · exact absurd (h.symm.trans hpass) nofun
        · exact absurd (h.symm.trans hstart) nofun
      · rw [← henabled]
        exact congrArg s.enabled (hin.testNum inp.beyond).symm
  · exact h.epilogue hl hinp.noRejectedSequence heq

/-- In SEQ mode every test starts with CPU 0 as its master. -/
theorem Reachable.masterCpu_of_start {t : MainState × CpuState}
    (h : Reachable cfg Input.Regular t) (hstart : AboutToStart t) (hmode : t.1.cpuMode = .seq) :
    t.1.masterCpu = 0 := by
  have hinv : Regular cfg t ∧ SeqReady t :=
    h.induct (I := fun t => Regular cfg t ∧ SeqReady t)
      (fun t h₀ => ⟨⟨h₀.sound, h₀.scheduled⟩, fun hne => absurd h₀.point hne,
        fun _ => .inr (.inl h₀.masterCpu)⟩)
      fun inp t t' hinp hI hstep =>
        ⟨hI.1.mainStep hinp.beyond hstep, hI.2.mainStep hI.1 hinp hstep⟩
  obtain hr | hzero | ⟨hnot, -⟩ := hinv.2.master hmode
  · have hrestart := hinv.1.sound.restart_eq (by simp [hstart.1]) (by simp [hstart.1])
    exact absurd (hr.symm.trans hrestart) nofun
  · exact hzero
  · exact absurd hstart hnot

/-- **Rotation.** The loop of `select_next_master` ends. Between two consecutive starts in SEQ
mode the test goes through all its stages with one CPU after the other, beginning with CPU 0, if
no restart comes in between. If the test is not skipped, each of these stages is run in all
windows that have pages to test, in their order. A test that is skipped runs in no further window.

`head` and `tail` are what the main loop does around the test, the start of a pass and the search
for the next test. A skip is the flag `bail`, which stays set up to the next start: the stages
that are left are still gone through one by one, but no test is run in them (the last part, for
every mode and from any reachable state). -/
theorem seq_rotation (cfg : MainConfig) :
    (∀ masterCpu < cfg.numAvailableCpus, ∀ fuel ≥ cfg.numAvailableCpus,
      ∃ next, selectNextMasterLoop cfg fuel masterCpu = some next) ∧
    (∀ inps t₀ t₁ events, Reachable cfg Input.Regular t₀ → (∀ inp ∈ inps, inp.Regular) →
      ConsecutiveStarts cfg inps t₀ t₁ → t₀.1.cpuMode = .seq →
      t₀.1.enabled (testToStart t₀.1) = true → t₁.1.log = t₀.1.log ++ events →
      .restart ∉ events → t₀.1.masterCpu = 0 ∧ t₁.1.masterCpu = 0 ∧ ∃ head stages tail,
        events = head ++ .startTest (testToStart t₀.1) :: (stages ++ tail) ∧
        (∀ e ∈ head ++ tail, e.OutsideTest) ∧
        StageBlocks (testToStart t₀.1)
          (Tested (cfg.testedWindows t₀.1 (testToStart t₀.1)) t₁.1.bail)
          (cfg.enabledCpus.flatMap fun cpu =>
            (List.range (cfg.testPattern (testToStart t₀.1)).stages).map (cpu, ·)) stages ∧
        ((∀ inp ∈ inps, inp.NoSkip) → t₁.1.bail = false)) ∧
    (∀ inps t₀ t₁ events, Reachable cfg (fun _ => True) t₀ → t₀.1.bail = true →
      mainRun cfg inps t₀ = some t₁ →
      Executions.Always (mainStep cfg) (fun _ t => ¬AboutToStart t) inps t₀ →
      t₁.1.log = t₀.1.log ++ events → ∀ e ∈ events, ¬e.IsRunTest) := by
  refine ⟨fun masterCpu hlt fuel hfuel => ?_, fun inps t₀ t₁ events hreach hinps hcons hmode
    henabled hlog hrestart => ?_, fun inps t₀ t₁ events hreach hbail hrun halways hlog => ?_⟩
  · obtain ⟨next, hloop, -⟩ := selectNextMasterLoop_spec hlt ((Nat.sub_le _ _).trans hfuel)
    exact ⟨next, hloop⟩
  · have hzero := hreach.masterCpu_of_start hcons.start hmode
    have hno : ∀ inp ∈ inps, (∀ inp ∈ inps, inp.NoSkip) → inp.NoSkip := fun inp hinp hno =>
      hno inp hinp
    obtain ⟨hreg, htest⟩ := testRun_of_starts (hreach.regular fun _ hinp => hinp.beyond) hinps
      hno hcons.start hcons.nonempty hcons.run hcons.between henabled
    rw [hmode, hzero] at htest
    obtain ⟨-, ⟨_, hrot, -⟩, hpass, -⟩ | ⟨hr, -⟩ | ⟨hover, -⟩ | ⟨events', hlog', hr, -⟩ := htest
    · obtain h | h | h := hcons.next.2
      · exact absurd (h.symm.trans hrot.startRun) nofun
      · exact absurd (h.symm.trans hpass) nofun
      · exact absurd (h.symm.trans hrot.startTest) nofun
    · exact absurd (hreg.sound.restart hr) (by simp [hcons.next.1])
    · obtain ⟨head, stages, tail, hevents, hhead, hstages, htail⟩ := hover.log
      rw [hlog] at hevents
      rw [MainConfig.testRounds, if_pos (.inl rfl), MainConfig.rounds, cfg.masters_zero] at hstages
      exact ⟨hzero, hover.masterCpu rfl, head, stages, tail, List.append_cancel_left hevents,
        hhead.append htail, hstages, hover.bail⟩
    · rw [hlog] at hlog'
      exact absurd (List.append_cancel_left hlog' ▸ hr) hrestart
  · have hsound : Sound cfg t₀.1 t₀.2.point :=
      hreach.induct (I := fun t => Sound cfg t.1 t.2.point) (fun t h₀ => h₀.sound)
        fun inp t t' _ h hstep => h.mainStep hstep
    have hinv := Executions.exec_invariant (I := fun t => Sound cfg t.1 t.2.point ∧
        t.1.bail = true ∧ ∃ events, t.1.log = t₀.1.log ++ events ∧ ∀ e ∈ events, ¬e.IsRunTest)
      (fun inp t t' hstart hI hstep => ?_) halways
      ⟨hsound, hbail, [], (List.append_nil _).symm, by simp⟩ hrun
    · obtain ⟨-, -, events', hlog', hevents⟩ := hinv
      rw [hlog] at hlog'
      exact List.append_cancel_left hlog' ▸ hevents
    · obtain ⟨hsound, hbail, events, hlog, hevents⟩ := hI
      obtain ⟨hbail', events', hlog', hevents'⟩ := hsound.mainStep_skip hbail hstart hstep
      exact ⟨hsound.mainStep hstep, hbail', events ++ events',
        by rw [hlog', hlog, List.append_assoc],
        fun e he => (List.mem_append.mp he).elim (hevents e) (hevents' e)⟩

/-! ### Two CPUs -/

/-- The same machine with two CPUs. -/
def twoCpuConfig : MainConfig :=
  { oneCpuConfig with numAvailableCpus := 2, numAvailableCpus_pos := Nat.two_pos }

instance decidableAboutToStart (t : MainState × CpuState) : Decidable (AboutToStart t) :=
  inferInstanceAs (Decidable (_ ∧ _))

theorem Input.regular_quietInput : quietInput.Regular :=
  ⟨fun _ hactions => absurd hactions List.not_mem_nil, by decide⟩

/-- Two starts of tests, found by going along a run. -/
theorem ConsecutiveStarts.of_run {inps : List Input} {t₀ t₁ : MainState × CpuState}
    (hstart : AboutToStart t₀) (hrun : mainRun cfg (inp :: inps) t₀ = some t₁)
    (hnext : AboutToStart t₁)
    (hbetween : ((mainStep cfg inp t₀).all fun u =>
      decide (Executions.Always (mainStep cfg) (fun _ t => ¬AboutToStart t) inps u)) = true) :
    ConsecutiveStarts cfg (inp :: inps) t₀ t₁ where
  start := hstart
  nonempty := List.cons_ne_nil _ _
  run := hrun
  next := hnext
  between before inp' after t heq hne ht := by
    obtain ⟨inp₀, before, rfl⟩ := List.exists_cons_of_ne_nil hne
    obtain ⟨rfl, rfl⟩ := List.cons.inj heq
    obtain ⟨u, hu, ht⟩ := Executions.exec_cons_eq_some.mp ht
    rw [hu, Option.all_some, decide_eq_true_eq] at hbetween
    exact hbetween before inp' after t rfl ht

/-- Test 0 in SEQ mode, on two CPUs with two windows of memory: CPU 0 runs it in both windows,
then CPU 1 does. -/
theorem seq_rotation_twoCpus :
    ∃ t₁ events, mainRun twoCpuConfig (List.replicate 18 quietInput)
        (mainInit (fun n => n = 0) .seq) = some t₁ ∧
      t₁.1.log = (mainInit (fun n => n = 0) .seq).1.log ++ events ∧
      t₁.1.masterCpu = 0 ∧ ∃ head stages tail,
        events = head ++ .startTest 0 :: (stages ++ tail) ∧
        (∀ e ∈ head ++ tail, e.OutsideTest) ∧
        StageBlocks 0 (fun tested => tested = [0, 1]) [(0, 0), (1, 0)] stages := by
  have hstart : ((mainRun twoCpuConfig (List.replicate 18 quietInput)
      (mainInit (fun n => n = 0) .seq)).map fun t =>
        decide (AboutToStart t) && !t.1.log.contains .restart) = some true := by decide
  obtain ⟨t₁, hrun, hnext⟩ := Option.map_eq_some_iff.mp hstart
  obtain ⟨hnext, hrestart⟩ := Bool.and_eq_true_iff.mp hnext
  obtain ⟨events, hevents⟩ := mainRun_log hrun
  have hcons : ConsecutiveStarts twoCpuConfig (List.replicate 18 quietInput)
      (mainInit (fun n => n = 0) .seq) t₁ :=
    .of_run (by decide) hrun (of_decide_eq_true hnext) (by decide)
  have hreach : Reachable twoCpuConfig Input.Regular (mainInit (fun n => n = 0) .seq) :=
    ⟨[], _, isInitial_mainInit _ _, by simp, rfl⟩
  obtain ⟨-, hmaster, head, stages, tail, hcut, hout, hstages, hbail⟩ :=
    (seq_rotation twoCpuConfig).2.1 _ _ t₁ events hreach
      (fun inp hinp => List.eq_of_mem_replicate hinp ▸ Input.regular_quietInput) hcons rfl
      (by decide) hevents.symm fun hmem => by
        have hlog : .restart ∈ t₁.1.log := hevents ▸ List.mem_append_right _ hmem
        simp [hlog] at hrestart
  have hwindows : twoCpuConfig.testedWindows (mainInit (fun n => n = 0) .seq).1 0 = [0, 1] := by
    decide
  refine ⟨t₁, events, hrun, hevents.symm, hmaster, head, stages, tail, hcut, hout,
    hstages.mono fun tested htested => (htested.2 (hbail fun inp hinp => ?_)).trans hwindows⟩
  rw [List.eq_of_mem_replicate hinp]
  exact fun actions hactions => absurd hactions List.not_mem_nil

/-- Every stage that is cut out of the log of a test has an end in it. -/
theorem StageBlocks.mem {t : ℤ} {complete : List ℕ → Prop} {rounds : List (ℕ × ℕ)}
    {stages : List MainEvent} (h : StageBlocks t complete rounds stages) {masterCpu stage : ℕ}
    (hmem : (masterCpu, stage) ∈ rounds) :
    .endStage t stage masterCpu ∈ stages := by
  induction h with
  | nil => exact absurd hmem List.not_mem_nil
  | stage _ _ _ ih =>
    obtain hmem | hmem := List.mem_append.mp hmem
    · exact List.mem_append_left _ (ih hmem)
    · obtain ⟨rfl, rfl⟩ := Prod.mk.inj (List.mem_singleton.mp hmem)
      exact List.mem_append_right _ (List.mem_append_right _ (List.mem_singleton_self _))

/-- The user adds a test while the first CPU is at the end of the first stage: the other CPU does
not become the master. -/
theorem not_seq_rotation_restart :
    ¬∀ (cfg : MainConfig) (inps : List Input) (t₀ t₁ : MainState × CpuState)
        (events : List MainEvent), Reachable cfg Input.Regular t₀ →
      (∀ inp ∈ inps, inp.Regular) → ConsecutiveStarts cfg inps t₀ t₁ → t₀.1.cpuMode = .seq →
      t₀.1.enabled (testToStart t₀.1) = true → t₁.1.log = t₀.1.log ++ events →
      ∃ head stages tail, events = head ++ .startTest (testToStart t₀.1) :: (stages ++ tail) ∧
        (∀ e ∈ head ++ tail, e.OutsideTest) ∧
        StageBlocks (testToStart t₀.1)
          (Tested (cfg.testedWindows t₀.1 (testToStart t₀.1)) t₁.1.bail)
          (cfg.enabledCpus.flatMap fun cpu =>
            (List.range (cfg.testPattern (testToStart t₀.1)).stages).map (cpu, ·)) stages := by
  intro h
  obtain ⟨inps, hinps⟩ : ∃ inps, inps = List.replicate 8 quietInput ++
      [⟨[[.addOrRemoveTest 4 true]], 255, true⟩] := ⟨_, rfl⟩
  have hstart : ((mainRun twoCpuConfig inps (mainInit (fun n => n = 0) .seq)).map fun t =>
      decide (AboutToStart t) && !t.1.log.contains (.endStage 0 0 1)) = some true := by
    rw [hinps]
    decide
  obtain ⟨t₁, hrun, hnext⟩ := Option.map_eq_some_iff.mp hstart
  obtain ⟨hnext, hend⟩ := Bool.and_eq_true_iff.mp hnext
  obtain ⟨events, hevents⟩ := mainRun_log hrun
  have hcons : ConsecutiveStarts twoCpuConfig inps (mainInit (fun n => n = 0) .seq) t₁ := by
    subst hinps
    exact .of_run (by decide) hrun (of_decide_eq_true hnext) (by decide)
  have hregular : ∀ inp ∈ inps, inp.Regular := by
    rw [hinps]
    intro inp hinp
    obtain hinp | hinp := List.mem_append.mp hinp
    · exact List.eq_of_mem_replicate hinp ▸ Input.regular_quietInput
    · rw [List.mem_singleton.mp hinp]
      exact ⟨by simp [Input.NoRejectedSequence], by decide⟩
  obtain ⟨head, stages, tail, heq, -, hstages⟩ := h twoCpuConfig inps _ t₁ events
    ⟨[], _, isInitial_mainInit _ _, by simp, rfl⟩ hregular hcons rfl (by decide) hevents.symm
  have hmem : .endStage 0 0 1 ∈ t₁.1.log := by
    rw [← hevents, heq]
    refine List.mem_append_right _ (List.mem_append_right _ (.tail _ (List.mem_append_left _ ?_)))
    exact hstages.mem (by decide)
  simp [hmem] at hend

end Memtest
