import Memtest.Main.Loop

/-!
# What a step of the main loop can do

`mainStep_cases` says it once: a step is the prologue of a trip, a step inside `test_all_windows`,
an entry into `main` after a move, or the epilogue of a trip. The epilogue has cases of its own
(`epilogue_cases`). What the menus can change is in `checkInput_frame` and `checkInput_keep`: as
long as `restart` is not set, the configuration is what it was.
-/

namespace Memtest

variable {cfg : MainConfig} {inp : Input} {s s' : MainState} {l l' : CpuState}

@[simp]
theorem MainState.record_log (s : MainState) (e : MainEvent) :
    (s.record e).log = s.log ++ [e] := rfl

@[simp]
theorem MainState.fetchTest_log (s : MainState) (beyond : ℤ) :
    (s.fetchTest beyond).log = s.log ++ [.readSequence s.testNumIndex] := rfl

/-! ### The test sequence -/

theorem TestSequence.length_order (sequence : TestSequence) :
    sequence.order.length = numTestPatterns := by
  rw [sequence.perm.length_eq, List.length_range]

theorem TestSequence.nodup_order (sequence : TestSequence) : sequence.order.Nodup :=
  sequence.perm.nodup_iff.mpr List.nodup_range

theorem TestSequence.mem_order {sequence : TestSequence} {t : ℕ} :
    t ∈ sequence.order ↔ t < numTestPatterns := by
  rw [sequence.perm.mem_iff, List.mem_range]

theorem TestSequence.read_of_lt (sequence : TestSequence) (beyond : ℤ) {index : ℕ}
    (h : index < numTestPatterns) :
    ∃ t, sequence.order[index]? = some t ∧ t < numTestPatterns ∧
      sequence.read beyond index = t := by
  rw [← sequence.length_order] at h
  have hget : sequence.order[index]? = some sequence.order[index] := List.getElem?_eq_getElem h
  exact ⟨_, hget, mem_order.mp (List.getElem_mem h), by rw [read, hget]; rfl⟩

theorem TestSequence.read_of_le (sequence : TestSequence) (beyond : ℤ) {index : ℕ}
    (h : numTestPatterns ≤ index) : sequence.read beyond index = beyond := by
  rw [read, List.getElem?_eq_none (by rw [sequence.length_order]; exact h)]
  rfl

/-! ### Menus -/

/-- Two states with the same configuration. -/
structure MainState.SameConfig (s s' : MainState) : Prop where
  enabled : s'.enabled = s.enabled
  testSequence : s'.testSequence = s.testSequence
  passNum : s'.passNum = s.passNum
  limits : s'.limits = s.limits

theorem MainState.SameConfig.refl (s : MainState) : s.SameConfig s := ⟨rfl, rfl, rfl, rfl⟩

theorem MainState.SameConfig.trans {s₁ s₂ s₃ : MainState} (h : s₁.SameConfig s₂)
    (h' : s₂.SameConfig s₃) : s₁.SameConfig s₃ where
  enabled := h'.enabled.trans h.enabled
  testSequence := h'.testSequence.trans h.testSequence
  passNum := h'.passNum.trans h.passNum
  limits := h'.limits.trans h.limits

theorem MainState.SameConfig.due (h : s.SameConfig s') : s'.due = s.due := by
  rw [MainState.due, MainState.due, h.enabled, h.testSequence]

/-- What no menu changes. -/
def MainState.outsideMenus (s : MainState) : MainState :=
  { s with
    startPass := false, restart := false, bail := false, passNum := 0, maxPassNum := 0,
    cpuMode := .par, limits := ⟨0, 0⟩, enabled := fun _ => false, testSequence := .default }

/-- What a part of a menu leaves as it was, and what it can set. -/
structure MenuStep (s s' : MainState) : Prop where
  outside : s'.outsideMenus = s.outsideMenus
  restart : s.restart = true → s'.restart = true
  bail : s.bail = true → s'.bail = true
  startPass : s.startPass = true → s'.startPass = true
  keep : s'.restart = true ∨ s.SameConfig s'

theorem MenuStep.refl (s : MainState) : MenuStep s s :=
  ⟨rfl, id, id, id, .inr (.refl s)⟩

theorem MenuStep.trans {s₁ s₂ s₃ : MainState} (h : MenuStep s₁ s₂) (h' : MenuStep s₂ s₃) :
    MenuStep s₁ s₃ where
  outside := h'.outside.trans h.outside
  restart hr := h'.restart (h.restart hr)
  bail hb := h'.bail (h.bail hb)
  startPass hp := h'.startPass (h.startPass hp)
  keep := by
    obtain hr | hkeep := h.keep
    · exact .inl (h'.restart hr)
    · exact h'.keep.imp_right hkeep.trans

theorem MenuStep.setEnabled (s : MainState) (n1 n2 : ℤ) (enabled : Bool) :
    MenuStep s (s.setEnabled n1 n2 enabled) :=
  ⟨rfl, fun _ => rfl, id, id, .inl rfl⟩

/-- One action. -/
theorem MenuStep.menuAction (cfg : MainConfig) (s : MainState) (action : MenuAction) :
    MenuStep s (menuAction cfg s action) := by
  cases action with
  | setAllTests enabled =>
    rw [Memtest.menuAction]
    exact .setEnabled s _ _ enabled
  | addOrRemoveTest n add =>
    rw [Memtest.menuAction]
    split_ifs
    · exact .refl s
    · exact .setEnabled s n n add
  | addTestRange n1 n2 =>
    rw [Memtest.menuAction]
    split_ifs
    · exact .refl s
    · exact .refl s
    · exact .setEnabled s n1 n2 true
  | setAllSequence values =>
    rw [Memtest.menuAction]
    cases setAllSequence values with
    | some sequence => exact ⟨rfl, fun _ => rfl, id, fun _ => rfl, .inl rfl⟩
    | none => exact ⟨rfl, id, id, fun _ => rfl, .inr ⟨rfl, rfl, rfl, rfl⟩⟩
  | setTestCycleTimes num =>
    rw [Memtest.menuAction]
    split_ifs <;> exact ⟨rfl, fun _ => rfl, id, id, .inl rfl⟩
  | setLowerLimit page | setUpperLimit page =>
    rw [Memtest.menuAction]
    split_ifs
    · exact ⟨rfl, fun _ => rfl, id, id, .inl rfl⟩
    · exact .refl s
  | testAllMemory => exact ⟨rfl, fun _ => rfl, id, id, .inl rfl⟩
  | setCpuMode mode => exact ⟨rfl, id, id, id, .inr ⟨rfl, rfl, rfl, rfl⟩⟩
  | skipTest => exact ⟨rfl, id, fun _ => rfl, id, .inr ⟨rfl, rfl, rfl, rfl⟩⟩
  | other => exact .refl s

theorem MenuStep.foldl_menuAction (cfg : MainConfig) (actions : List MenuAction)
    (s : MainState) : MenuStep s (actions.foldl (Memtest.menuAction cfg) s) := by
  induction actions generalizing s with
  | nil => exact .refl s
  | cons action actions ih => exact (MenuStep.menuAction cfg s action).trans (ih _)

/-- A whole menu. -/
theorem MenuStep.configMenu (cfg : MainConfig) (s : MainState) (actions : List MenuAction) :
    MenuStep s (configMenu cfg s actions) := by
  have hfold := MenuStep.foldl_menuAction cfg actions s
  rw [Memtest.configMenu]
  generalize actions.foldl (Memtest.menuAction cfg) s = s₁ at hfold
  have hmode : MenuStep s₁
      (if s₁.cpuMode ≠ s.cpuMode then { s₁ with restart := true } else s₁) := by
    split_ifs
    · exact ⟨rfl, fun _ => rfl, id, id, .inl rfl⟩
    · exact .refl s₁
  refine hfold.trans (hmode.trans ?_)
  split_ifs <;> first | exact .refl _ | exact ⟨rfl, id, fun _ => rfl, id, .inl ‹_›⟩

/-- A menu that changes `cpu_mode` sets `restart`. -/
theorem configMenu_cpuMode (cfg : MainConfig) (s : MainState) (actions : List MenuAction) :
    (configMenu cfg s actions).restart = true ∨
      (configMenu cfg s actions).cpuMode = s.cpuMode := by
  rw [configMenu]
  generalize actions.foldl (menuAction cfg) s = s₁
  by_cases hmode : s₁.cpuMode = s.cpuMode
  · refine .inr (.trans ?_ hmode)
    simp only [hmode, ne_eq, not_true_eq_false, if_false]
    split_ifs
    · rfl
    · exact hmode.symm ▸ rfl
  · simp [hmode]

theorem menuAction_startPass {action : MenuAction}
    (haction : ∀ values, action = .setAllSequence values → (setAllSequence values).isSome)
    (h : (menuAction cfg s action).startPass = true) :
    s.startPass = true ∨ (menuAction cfg s action).restart = true := by
  cases action with
  | setAllSequence values =>
    obtain ⟨sequence, hsome⟩ := Option.isSome_iff_exists.mp (haction values rfl)
    exact .inr (by rw [menuAction, hsome]; rfl)
  | addOrRemoveTest | addTestRange | setTestCycleTimes | setLowerLimit | setUpperLimit =>
    rw [menuAction] at h
    split_ifs at h <;> exact .inl h
  | setAllTests | testAllMemory | setCpuMode | skipTest | other =>
    rw [menuAction] at h
    exact .inl h

/-- Menus do not set `start_pass` without `restart` when no test sequence is rejected. -/
theorem configMenu_startPass {actions : List MenuAction}
    (hactions : ∀ values, .setAllSequence values ∈ actions → (setAllSequence values).isSome)
    (h : (configMenu cfg s actions).startPass = true) :
    s.startPass = true ∨ (configMenu cfg s actions).restart = true := by
  have hfold : (actions.foldl (menuAction cfg) s).startPass = true →
      s.startPass = true ∨ (actions.foldl (menuAction cfg) s).restart = true := by
    clear h
    induction actions generalizing s with
    | nil => exact .inl
    | cons action actions ih =>
      intro h
      obtain hpass | hrestart := ih (fun values hmem => hactions values (.tail _ hmem)) h
      · obtain hpass | hrestart := menuAction_startPass
          (fun values heq => hactions values (heq ▸ List.mem_cons_self)) hpass
        · exact .inl hpass
        · exact .inr ((MenuStep.foldl_menuAction cfg actions _).restart hrestart)
      · exact .inr hrestart
  rw [configMenu] at h ⊢
  generalize actions.foldl (menuAction cfg) s = s₁ at h hfold ⊢
  have hpass : s₁.startPass = true := by
    revert h
    split_ifs <;> exact id
  refine (hfold hpass).imp_right fun hrestart => ?_
  split_ifs <;> first | rfl | exact hrestart

/-! ### `check_input` -/

theorem MenuStep.checkInput (cfg : MainConfig) (s : MainState) (menus : List (List MenuAction)) :
    MenuStep s (checkInput cfg s menus) := by
  induction menus generalizing s with
  | nil => exact .refl s
  | cons actions menus ih => exact (MenuStep.configMenu cfg s actions).trans (ih _)

section

variable (cfg : MainConfig) (s : MainState) (menus : List (List MenuAction))

@[simp]
theorem checkInput_startRun : (checkInput cfg s menus).startRun = s.startRun :=
  (congrArg MainState.startRun (MenuStep.checkInput cfg s menus).outside :)

@[simp]
theorem checkInput_startTest : (checkInput cfg s menus).startTest = s.startTest :=
  (congrArg MainState.startTest (MenuStep.checkInput cfg s menus).outside :)

@[simp]
theorem checkInput_rerunTest : (checkInput cfg s menus).rerunTest = s.rerunTest :=
  (congrArg MainState.rerunTest (MenuStep.checkInput cfg s menus).outside :)

@[simp]
theorem checkInput_dummyRun : (checkInput cfg s menus).dummyRun = s.dummyRun :=
  (congrArg MainState.dummyRun (MenuStep.checkInput cfg s menus).outside :)

@[simp]
theorem checkInput_testNumIndex : (checkInput cfg s menus).testNumIndex = s.testNumIndex :=
  (congrArg MainState.testNumIndex (MenuStep.checkInput cfg s menus).outside :)

@[simp]
theorem checkInput_testNum : (checkInput cfg s menus).testNum = s.testNum :=
  (congrArg MainState.testNum (MenuStep.checkInput cfg s menus).outside :)

@[simp]
theorem checkInput_testStage : (checkInput cfg s menus).testStage = s.testStage :=
  (congrArg MainState.testStage (MenuStep.checkInput cfg s menus).outside :)

@[simp]
theorem checkInput_windowNum : (checkInput cfg s menus).windowNum = s.windowNum :=
  (congrArg MainState.windowNum (MenuStep.checkInput cfg s menus).outside :)

@[simp]
theorem checkInput_windowEnd : (checkInput cfg s menus).windowEnd = s.windowEnd :=
  (congrArg MainState.windowEnd (MenuStep.checkInput cfg s menus).outside :)

@[simp]
theorem checkInput_vm : (checkInput cfg s menus).vm = s.vm :=
  (congrArg MainState.vm (MenuStep.checkInput cfg s menus).outside :)

@[simp]
theorem checkInput_mappedWindow : (checkInput cfg s menus).mappedWindow = s.mappedWindow :=
  (congrArg MainState.mappedWindow (MenuStep.checkInput cfg s menus).outside :)

@[simp]
theorem checkInput_masterCpu : (checkInput cfg s menus).masterCpu = s.masterCpu :=
  (congrArg MainState.masterCpu (MenuStep.checkInput cfg s menus).outside :)

@[simp]
theorem checkInput_log : (checkInput cfg s menus).log = s.log :=
  (congrArg MainState.log (MenuStep.checkInput cfg s menus).outside :)

/-- As long as no restart is asked for, the configuration stays as it is. -/
theorem checkInput_keep : (checkInput cfg s menus).restart = true ∨
    s.SameConfig (checkInput cfg s menus) ∧ (checkInput cfg s menus).cpuMode = s.cpuMode := by
  induction menus generalizing s with
  | nil => exact .inr ⟨.refl s, rfl⟩
  | cons actions menus ih =>
    obtain hrestart | ⟨hkeep, hmode⟩ := ih (configMenu cfg s actions)
    · exact .inl hrestart
    · have hstep := (MenuStep.checkInput cfg (configMenu cfg s actions) menus).restart
      obtain hrestart | hkeep' := (MenuStep.configMenu cfg s actions).keep
      · exact .inl (hstep hrestart)
      · obtain hrestart | hmode' := configMenu_cpuMode cfg s actions
        · exact .inl (hstep hrestart)
        · exact .inr ⟨hkeep'.trans hkeep, hmode.trans hmode'⟩

end

/-- No menu has rejected a test sequence. -/
def Input.NoRejectedSequence (inp : Input) : Prop :=
  ∀ actions ∈ inp.menus, ∀ values, .setAllSequence values ∈ actions →
    (setAllSequence values).isSome

theorem checkInput_startPass (hinp : inp.NoRejectedSequence)
    (h : (checkInput cfg s inp.menus).startPass = true) :
    s.startPass = true ∨ (checkInput cfg s inp.menus).restart = true := by
  obtain ⟨menus, beyond, noErrors⟩ := inp
  induction menus generalizing s with
  | nil => exact .inl h
  | cons actions menus ih =>
    obtain hpass | hrestart := ih (fun actions' hmem => hinp actions' (.tail _ hmem)) h
    · obtain hpass | hrestart := configMenu_startPass (hinp actions List.mem_cons_self) hpass
      · exact .inl hpass
      · exact .inr ((MenuStep.checkInput cfg (configMenu cfg s actions) menus).restart hrestart)
    · exact .inr hrestart

/-- The user has not skipped a test. -/
def Input.NoSkip (inp : Input) : Prop :=
  ∀ actions ∈ inp.menus, .skipTest ∉ actions

/-- Only the entry that skips a test sets `bail` by itself. -/
theorem menuAction_bail {action : MenuAction} (h : action ≠ .skipTest) :
    (menuAction cfg s action).bail = s.bail := by
  cases action with
  | skipTest => exact absurd rfl h
  | setAllSequence values =>
    rw [menuAction]
    cases setAllSequence values <;> rfl
  | addOrRemoveTest | addTestRange | setTestCycleTimes | setLowerLimit | setUpperLimit =>
    rw [menuAction]
    split_ifs <;> rfl
  | setAllTests | testAllMemory | setCpuMode | other => rfl

/-- A menu in which no test is skipped sets `bail` only together with `restart`. -/
theorem configMenu_skip {actions : List MenuAction} (hactions : .skipTest ∉ actions)
    (h : (configMenu cfg s actions).bail = true) :
    s.bail = true ∨ (configMenu cfg s actions).restart = true := by
  have hfold : (actions.foldl (menuAction cfg) s).bail = s.bail := by
    clear h
    induction actions generalizing s with
    | nil => rfl
    | cons action actions ih =>
      rw [List.mem_cons, not_or] at hactions
      obtain ⟨haction, hrest⟩ := hactions
      exact (ih hrest).trans (menuAction_bail (Ne.symm haction))
  rw [configMenu] at h ⊢
  generalize actions.foldl (menuAction cfg) s = s₁ at h hfold ⊢
  by_cases hrestart : (if s₁.cpuMode ≠ s.cpuMode then { s₁ with restart := true } else s₁).restart
      = true
  · rw [if_pos hrestart]
    exact .inr hrestart
  · rw [if_neg hrestart] at h
    refine .inl (hfold.symm.trans (.trans ?_ h))
    split_ifs <;> rfl

theorem checkInput_skip (hinp : inp.NoSkip) (h : (checkInput cfg s inp.menus).bail = true) :
    s.bail = true ∨ (checkInput cfg s inp.menus).restart = true := by
  obtain ⟨menus, beyond, noErrors⟩ := inp
  induction menus generalizing s with
  | nil => exact .inl h
  | cons actions menus ih =>
    obtain hbail | hrestart := ih (fun actions' hmem => hinp actions' (.tail _ hmem)) h
    · obtain hbail | hrestart := configMenu_skip (hinp actions List.mem_cons_self) hbail
      · exact .inl hbail
      · exact .inr ((MenuStep.checkInput cfg (configMenu cfg s actions) menus).restart hrestart)
    · exact .inr hrestart

/-! ### The next master -/

/-- The CPU that follows in the rotation: the next one that is not disabled, or CPU 0 where there
is none. -/
def MainConfig.IsNextMaster (cfg : MainConfig) (masterCpu next : ℕ) : Prop :=
  (masterCpu < next ∧ next < cfg.numAvailableCpus ∧ cfg.disabled next = false ∧
    ∀ cpu, masterCpu < cpu → cpu < next → cfg.disabled cpu = true) ∨
  (next = 0 ∧ ∀ cpu, masterCpu < cpu → cpu < cfg.numAvailableCpus → cfg.disabled cpu = true)

/-- The loop of `select_next_master` ends, whatever bound above the number of CPUs that are left it
is given. -/
theorem selectNextMasterLoop_spec {fuel masterCpu : ℕ} (hlt : masterCpu < cfg.numAvailableCpus)
    (hfuel : cfg.numAvailableCpus - masterCpu ≤ fuel) :
    ∃ next, selectNextMasterLoop cfg fuel masterCpu = some next ∧
      cfg.IsNextMaster masterCpu next := by
  induction fuel generalizing masterCpu with
  | zero => exact absurd hlt (by omega)
  | succ fuel ih =>
    rw [selectNextMasterLoop]
    obtain heq | hlt' : masterCpu + 1 = cfg.numAvailableCpus ∨
        masterCpu + 1 < cfg.numAvailableCpus := by omega
    · -- the last CPU is followed by CPU 0
      rw [heq, Nat.mod_self, if_neg (by simp [cfg.bsp_enabled])]
      exact ⟨0, rfl, .inr ⟨rfl, fun cpu h h' => absurd h (by omega)⟩⟩
    · rw [Nat.mod_eq_of_lt hlt']
      by_cases hdis : cfg.disabled (masterCpu + 1) = true
      · rw [if_pos hdis]
        obtain ⟨next, hloop, hnext⟩ := ih hlt' (by omega)
        have hskip : ∀ cpu, masterCpu < cpu → cpu = masterCpu + 1 ∨ masterCpu + 1 < cpu :=
          fun cpu h => by omega
        refine ⟨next, hloop, hnext.imp ?_ ?_⟩
        · rintro ⟨hgt, hrange, hen, hbetween⟩
          refine ⟨by omega, hrange, hen, fun cpu h h' => ?_⟩
          obtain rfl | h := hskip cpu h
          · exact hdis
          · exact hbetween cpu h h'
        · rintro ⟨hzero, hrest⟩
          refine ⟨hzero, fun cpu h h' => ?_⟩
          obtain rfl | h := hskip cpu h
          · exact hdis
          · exact hrest cpu h h'
      · rw [if_neg hdis]
        exact ⟨_, rfl, .inl ⟨Nat.lt_succ_self _, hlt', by simpa using hdis,
          fun cpu h h' => absurd h (by omega)⟩⟩

theorem selectNextMaster_isNextMaster (h : s.masterCpu < cfg.numAvailableCpus) :
    cfg.IsNextMaster s.masterCpu (selectNextMaster cfg s).masterCpu := by
  obtain ⟨next, hloop, hnext⟩ := selectNextMasterLoop_spec h (Nat.sub_le _ _)
  simp only [selectNextMaster, hloop, Option.getD_some]
  exact hnext

/-! ### The prologue -/

/-- No pass begins and no test: only the window may be reset. -/
theorem prologue_of_resume (beyond : ℤ) (hrun : s.startRun = false) (hpass : s.startPass = false)
    (htest : s.startTest = false) :
    prologue beyond s = { beginStage s with rerunTest := false } := by
  obtain ⟨⟩ := s
  simp only at hrun hpass htest
  subst hrun hpass htest
  simp only [prologue, beginRun, beginPass, beginTest, beginStage, if_false, Bool.false_eq_true]
  split_ifs <;> rfl

/-- The next test of the pass begins. -/
theorem prologue_of_startTest (beyond : ℤ) (hrun : s.startRun = false)
    (hpass : s.startPass = false) (htest : s.startTest = true) :
    prologue beyond s = { s with
      startTest := false, rerunTest := false, testStage := 0, bail := false
      windowNum := 0, windowStart := 0, windowEnd := 0
      log := s.log ++ .indexTest s.testNum ::
        if s.enabled s.testNum then [.startTest s.testNum] else [] } := by
  cases henabled : s.enabled s.testNum <;>
    simp [prologue, beginRun, beginPass, beginTest, beginStage, MainState.record, hrun, hpass,
      htest, henabled]

/-- A pass begins, with its first test. -/
theorem prologue_of_startPass (beyond : ℤ) (h : s.startRun = true ∨ s.startPass = true) :
    prologue beyond s = { s with
      startRun := false, startPass := false, startTest := false, rerunTest := false
      testStage := 0, bail := false, windowNum := 0, windowStart := 0, windowEnd := 0
      testNumIndex := 0, testNum := s.testSequence.read beyond 0
      passNum := if s.startRun then 0 else s.passNum
      log := s.log ++ .startPass (if s.startRun then 0 else s.passNum) s.due ::
        .readSequence 0 :: .indexTest (s.testSequence.read beyond 0) ::
        if s.enabled (s.testSequence.read beyond 0) then
          [.startTest (s.testSequence.read beyond 0)] else [] } := by
  have hrun : beginRun s = { s with
      passNum := if s.startRun then 0 else s.passNum, startPass := true } := by
    cases hrun : s.startRun with
    | true => simp [beginRun, hrun]
    | false =>
      have hpass := h.resolve_left (by simp [hrun])
      obtain ⟨⟩ := s
      simp only at hrun hpass
      subst hrun hpass
      rfl
  rw [prologue, hrun]
  cases henabled : s.enabled (s.testSequence.read beyond 0) <;>
    simp [beginPass, beginTest, beginStage, MainState.record, MainState.fetchTest, MainState.due,
      henabled]

/-! ### The epilogue -/

/-- The tests that are run with one master after the other. -/
def MainConfig.Rotates (cfg : MainConfig) (s : MainState) : Prop :=
  s.cpuMode = .seq ∨ s.cpuMode = .par ∧ (cfg.testPattern s.testNum).cpuMode = .seq

/-- The master of the next test, where the test in this state has been run by its last master. -/
def MainConfig.LeavesTest (cfg : MainConfig) (s : MainState) (next : ℕ) : Prop :=
  cfg.Rotates s ∧ next = 0 ∧ (selectNextMaster cfg s).masterCpu = 0 ∨
    s.cpuMode = .one ∧ next = (selectNextMaster cfg s).masterCpu ∨
    s.cpuMode = .par ∧ (cfg.testPattern s.testNum).cpuMode ≠ .seq ∧ next = s.masterCpu

theorem MainConfig.LeavesTest.masterCpu {next : ℕ} (h : cfg.LeavesTest s next)
    (hrot : cfg.Rotates s) : (selectNextMaster cfg s).masterCpu = 0 := by
  obtain ⟨-, -, h⟩ | ⟨hmode, -⟩ | ⟨hmode, hcol, -⟩ := h
  · exact h
  · exact hrot.elim (fun h => absurd (h.symm.trans hmode) nofun) fun h =>
      absurd (h.1.symm.trans hmode) nofun
  · exact hrot.elim (fun h => absurd (h.symm.trans hmode) nofun) fun h => absurd h.2 hcol

/-- The state after a stage, before it is decided what comes next. -/
def MainState.afterStage (s : MainState) (testStage masterCpu : ℕ) : MainState :=
  { s with
    testStage := testStage, masterCpu := masterCpu
    log := s.log ++ [.indexTest s.testNum, .endStage s.testNum s.testStage s.masterCpu] }

theorem rotateMaster_cases (cfg : MainConfig) (inp : Input) (s : MainState) :
    ((selectNextMaster cfg s).masterCpu ≠ 0 ∧ rotateMaster cfg inp s =
      ({ s with masterCpu := (selectNextMaster cfg s).masterCpu, rerunTest := true }, .loopTop)) ∨
    ((selectNextMaster cfg s).masterCpu = 0 ∧
      rotateMaster cfg inp s = nextTest inp { s with masterCpu := 0 }) := by
  by_cases hnext : (selectNextMaster cfg s).masterCpu = 0
  · refine .inr ⟨hnext, ?_⟩
    simp only [rotateMaster, hnext, ne_eq, not_true_eq_false, if_false]
    rw [← hnext]
    rfl
  · exact .inl ⟨hnext, if_pos hnext⟩

/-- The test has gone through a stage. -/
theorem endStage_cases (cfg : MainConfig) (inp : Input) (s : MainState) :
    (s.testStage + 1 < (cfg.testPattern s.testNum).stages ∧
      endStage cfg inp (s.record (.indexTest s.testNum)) =
        ({ s.afterStage (s.testStage + 1) s.masterCpu with rerunTest := true }, .loopTop)) ∨
    ((cfg.testPattern s.testNum).stages ≤ s.testStage + 1 ∧ cfg.Rotates s ∧
      (selectNextMaster cfg s).masterCpu ≠ 0 ∧
      endStage cfg inp (s.record (.indexTest s.testNum)) =
        ({ s.afterStage 0 (selectNextMaster cfg s).masterCpu with rerunTest := true },
          .loopTop)) ∨
    ∃ next, (cfg.testPattern s.testNum).stages ≤ s.testStage + 1 ∧ cfg.LeavesTest s next ∧
      endStage cfg inp (s.record (.indexTest s.testNum)) = nextTest inp (s.afterStage 0 next) := by
  have hlog : s.log ++ [MainEvent.indexTest s.testNum] ++
      [MainEvent.endStage s.testNum s.testStage s.masterCpu] =
      s.log ++ [.indexTest s.testNum, .endStage s.testNum s.testStage s.masterCpu] := by simp
  by_cases hstage : s.testStage + 1 < (cfg.testPattern s.testNum).stages
  · refine .inl ⟨hstage, ?_⟩
    simp only [endStage, MainState.record, if_pos hstage, MainState.afterStage, hlog]
  have hstages := Nat.not_lt.mp hstage
  refine .inr ?_
  have hrotate : cfg.Rotates s → endStage cfg inp (s.record (.indexTest s.testNum)) =
      rotateMaster cfg inp (s.afterStage 0 s.masterCpu) := by
    rintro (hmode | ⟨hmode, hcol⟩)
    · simp only [endStage, MainState.record, if_neg hstage, MainState.afterStage, hlog, hmode]
    · simp only [endStage, MainState.record, if_neg hstage, MainState.afterStage, hlog, hmode,
        hcol, if_true]
  by_cases hrot : cfg.Rotates s
  · rw [hrotate hrot]
    obtain ⟨hnext, heq⟩ | ⟨hnext, heq⟩ :=
      rotateMaster_cases cfg inp (s.afterStage 0 s.masterCpu)
    · exact .inl ⟨hstages, hrot, hnext, heq⟩
    · exact .inr ⟨0, hstages, .inl ⟨hrot, rfl, hnext⟩, heq⟩
  · refine .inr ?_
    cases hmode : s.cpuMode with
    | seq => exact absurd (.inl hmode) hrot
    | one =>
      refine ⟨_, hstages, .inr (.inl ⟨hmode, rfl⟩), ?_⟩
      simp only [endStage, MainState.record, if_neg hstage, MainState.afterStage, hlog, hmode]
      rfl
    | par =>
      have hcol : (cfg.testPattern s.testNum).cpuMode ≠ .seq := fun hcol =>
        hrot (.inr ⟨hmode, hcol⟩)
      refine ⟨_, hstages, .inr (.inr ⟨hmode, hcol, rfl⟩), ?_⟩
      simp only [endStage, MainState.record, if_neg hstage, MainState.afterStage, hlog, hmode,
        if_neg hcol]

/-- What CPU 0 does at the end of a trip. -/
theorem epilogue_cases (cfg : MainConfig) (inp : Input) (s : MainState) {s₁ : MainState}
    (h₁ : s₁ = checkInput cfg s inp.menus) :
    (s₁.restart = true ∧ epilogue cfg inp s =
      ({ s₁.record .restart with
        masterCpu := 0, startRun := true, dummyRun := true, restart := false }, .loopTop)) ∨
    (s₁.restart = false ∧ s₁.enabled s₁.testNum = false ∧
      epilogue cfg inp s = nextTest inp (s₁.record (.indexTest s₁.testNum))) ∨
    (s₁.restart = false ∧ s₁.enabled s₁.testNum = true ∧
      epilogue cfg inp s = endStage cfg inp (s₁.record (.indexTest s₁.testNum))) := by
  rw [epilogue, ← h₁]
  cases hrestart : s₁.restart with
  | true => exact .inl ⟨rfl, rfl⟩
  | false =>
    cases henabled : s₁.enabled s₁.testNum with
    | true => exact .inr (.inr ⟨rfl, rfl, if_pos henabled⟩)
    | false =>
      have hnot : ¬(s₁.record (.indexTest s₁.testNum)).enabled s₁.testNum = true := by
        simp [MainState.record, henabled]
      exact .inr (.inl ⟨rfl, rfl, if_neg hnot⟩)

/-- The end of a pass asks for the next one, or the program stays there. -/
theorem endPass_cases (noErrors : Bool) (s : MainState) :
    ∃ startRun startPass dummyRun point,
      endPass noErrors s = ({ s.record (.endPass (s.passNum + 1)) with
        passNum := s.passNum + 1, startRun := startRun, startPass := startPass,
        dummyRun := dummyRun }, point) ∧
      (startRun = true ∨ startPass = true) ∧ (point = .loopTop ∨ point = .finished) := by
  by_cases hlast : s.dummyRun = true ∧ s.passNum + 1 = numPassTypes
  · exact ⟨true, s.startPass, false, .loopTop, if_pos hlast, .inl rfl, .inl rfl⟩
  by_cases hdummy : s.dummyRun = true
  · exact ⟨s.startRun, true, s.dummyRun, .loopTop, (if_neg hlast).trans (if_pos hdummy), .inr rfl,
      .inl rfl⟩
  by_cases hnext : noErrors = true ∧ s.passNum + 1 < s.maxPassNum
  · exact ⟨s.startRun, true, s.dummyRun, .loopTop,
      (if_neg hlast).trans ((if_neg hdummy).trans (if_pos hnext)), .inr rfl, .inl rfl⟩
  · exact ⟨s.startRun, true, s.dummyRun, .finished,
      (if_neg hlast).trans ((if_neg hdummy).trans (if_neg hnext)), .inr rfl, .inr rfl⟩

/-- What CPU 0 does when it leaves a test. -/
theorem nextTest_cases (inp : Input) (s : MainState) {s₁ : MainState}
    (h₁ : s₁ = { s with startTest := true, testNumIndex := s.testNumIndex + 1 }.fetchTest
      inp.beyond) :
    (s₁.testNum < numTestPatterns ∧ nextTest inp s = (s₁, .loopTop)) ∨
      (numTestPatterns ≤ s₁.testNum ∧ nextTest inp s = endPass inp.noErrors s₁) := by
  subst h₁
  obtain hlt | hge := lt_or_ge
    ({ s with startTest := true, testNumIndex := s.testNumIndex + 1 }.fetchTest inp.beyond).testNum
    (numTestPatterns : ℤ)
  · exact .inl ⟨hlt, if_pos hlt⟩
  · exact .inr ⟨hge, if_neg (not_lt.mpr hge)⟩

/-- The state when CPU 0 has left a test: either it comes to the next test of the pass, or the pass
has ended. -/
theorem nextTest_eq (inp : Input) (s : MainState) :
    ∃ startRun startPass dummyRun passNum testNum events point,
      nextTest inp s = ({ s with
        startRun := startRun, startPass := startPass, startTest := true, dummyRun := dummyRun,
        passNum := passNum, testNumIndex := s.testNumIndex + 1, testNum := testNum,
        log := s.log ++ .readSequence (s.testNumIndex + 1) :: events }, point) ∧
      (events = [] ∧ (startRun = s.startRun ∧ dummyRun = s.dummyRun) ∧ point = .loopTop ∨
        events = [.endPass (s.passNum + 1)] ∧ (startRun = true ∨ startPass = true) ∧
          (point = .loopTop ∨ point = .finished)) := by
  obtain ⟨-, heq⟩ | ⟨-, heq⟩ := nextTest_cases inp s rfl
  · exact ⟨s.startRun, s.startPass, s.dummyRun, s.passNum, _, [], .loopTop, heq,
      .inl ⟨rfl, ⟨rfl, rfl⟩, rfl⟩⟩
  · obtain ⟨startRun, startPass, dummyRun, point, hend, hnext, hpoint⟩ :=
      endPass_cases inp.noErrors ({ s with
        startTest := true, testNumIndex := s.testNumIndex + 1 }.fetchTest inp.beyond)
    refine ⟨startRun, startPass, dummyRun, s.passNum + 1,
      s.testSequence.read inp.beyond (s.testNumIndex + 1), [.endPass (s.passNum + 1)], point,
      heq.trans (hend.trans ?_), .inr ⟨rfl, hnext, hpoint⟩⟩
    simp [MainState.record, MainState.fetchTest]

/-! ### Steps inside a test -/

/-- The waits between the prologue and the epilogue of a trip. -/
def WaitPoint.InTest : WaitPoint → Prop
  | .testReady | .windowEntry | .windowChosen | .windowMapped => True
  | _ => False

/-- What a step inside `test_all_windows` leaves as it was, and what it can set. The place in the
sequence is kept; `restart` and `bail` can be set and not cleared. Unless there is a restart the
configuration is kept, and `startPass` and `bail` are only set by what the user does. The log
grows by the test's own index and by tests of its current stage on windows. -/
structure TestStep (inp : Input) (s s' : MainState) : Prop where
  startRun : s'.startRun = s.startRun
  startTest : s'.startTest = s.startTest
  rerunTest : s'.rerunTest = s.rerunTest
  dummyRun : s'.dummyRun = s.dummyRun
  testNumIndex : s'.testNumIndex = s.testNumIndex
  testNum : s'.testNum = s.testNum
  testStage : s'.testStage = s.testStage
  masterCpu : s'.masterCpu = s.masterCpu
  restart : s.restart = true → s'.restart = true
  bail : s.bail = true → s'.bail = true
  keep : s'.restart = true ∨ s.SameConfig s' ∧ s'.cpuMode = s.cpuMode
  startPass : inp.NoRejectedSequence → s'.startPass = true →
    s.startPass = true ∨ s'.restart = true
  skip : inp.NoSkip → s'.bail = true → s.bail = true ∨ s'.restart = true
  log : ∃ events, s'.log = s.log ++ events ∧ ∀ e ∈ events, e = .indexTest s.testNum ∨
    ∃ iterations windowNum,
      e = .runTest s.testNum s.testStage s.masterCpu iterations windowNum

/-- A step that changes what no menu and no part of the schedule depends on. -/
theorem TestStep.of_eq (inp : Input) (s : MainState) (windowNum windowStart windowEnd : ℕ)
    (vm : VmMapState) (mappedWindow numActiveCpus : ℕ) (events : List MainEvent)
    (hevents : ∀ e ∈ events, e = .indexTest s.testNum ∨ ∃ iterations windowNum,
      e = .runTest s.testNum s.testStage s.masterCpu iterations windowNum) :
    TestStep inp s { s with
      windowNum := windowNum, windowStart := windowStart, windowEnd := windowEnd, vm := vm
      mappedWindow := mappedWindow, numActiveCpus := numActiveCpus
      log := s.log ++ events } where
  startRun := rfl
  startTest := rfl
  rerunTest := rfl
  dummyRun := rfl
  testNumIndex := rfl
  testNum := rfl
  testStage := rfl
  masterCpu := rfl
  restart := id
  bail := id
  keep := .inr ⟨⟨rfl, rfl, rfl, rfl⟩, rfl⟩
  startPass _ h := .inl h
  skip _ h := .inl h
  log := ⟨events, rfl, hevents⟩

/-- A call of `run_test`. -/
theorem TestStep.runTest (cfg : MainConfig) (inp : Input) (s : MainState) (l : CpuState)
    (windowNum : ℕ) {menus : List (List MenuAction)} (hmenus : menus = [] ∨ menus = inp.menus) :
    TestStep inp s { runTest cfg menus s l with windowNum := windowNum } := by
  have hkeep := checkInput_keep cfg ((s.record (.indexTest s.testNum)).record
    (.runTest s.testNum s.testStage s.masterCpu l.iterations s.windowNum)) menus
  have hstep := MenuStep.checkInput cfg ((s.record (.indexTest s.testNum)).record
    (.runTest s.testNum s.testStage s.masterCpu l.iterations s.windowNum)) menus
  refine ⟨?_, ?_, ?_, ?_, ?_, ?_, ?_, ?_, hstep.restart, hstep.bail, ?_, ?_, ?_, ?_⟩
  iterate 8 · simp [Memtest.runTest, MainState.record]
  · exact hkeep.imp_right fun h => ⟨⟨h.1.1, h.1.2, h.1.3, h.1.4⟩, h.2⟩
  · intro hinp hpass
    obtain rfl | rfl := hmenus
    · exact .inl hpass
    · exact checkInput_startPass hinp hpass
  · intro hinp hbail
    obtain rfl | rfl := hmenus
    · exact .inl hbail
    · exact checkInput_skip hinp hbail
  · refine ⟨[.indexTest s.testNum,
      .runTest s.testNum s.testStage s.masterCpu l.iterations s.windowNum], ?_, fun e he => ?_⟩
    · simp [Memtest.runTest, MainState.record]
    · obtain rfl | rfl := List.mem_pair.mp he
      · exact .inl rfl
      · exact .inr ⟨_, _, rfl⟩

/-- The waits in `test_all_windows` and behind it. -/
def WaitPoint.AfterReady (point : WaitPoint) : Prop :=
  point ≠ .loopTop ∧ point ≠ .testReady ∧ point ≠ .finished

theorem TestStep.refl (inp : Input) (s : MainState) : TestStep inp s s := by
  simpa using TestStep.of_eq inp s s.windowNum s.windowStart s.windowEnd s.vm s.mappedWindow
    s.numActiveCpus [] fun e he => absurd he List.not_mem_nil

theorem TestStep.trans (h : TestStep inp s s') {s'' : MainState} (h' : TestStep inp s' s'') :
    TestStep inp s s'' := by
  obtain ⟨events, hlog, hevents⟩ := h.log
  obtain ⟨events', hlog', hevents'⟩ := h'.log
  rw [h.testNum, h.testStage, h.masterCpu] at hevents'
  exact ⟨h'.startRun.trans h.startRun, h'.startTest.trans h.startTest,
    h'.rerunTest.trans h.rerunTest, h'.dummyRun.trans h.dummyRun,
    h'.testNumIndex.trans h.testNumIndex, h'.testNum.trans h.testNum,
    h'.testStage.trans h.testStage, h'.masterCpu.trans h.masterCpu,
    fun hr => h'.restart (h.restart hr), fun hb => h'.bail (h.bail hb),
    h.keep.elim (fun hr => .inl (h'.restart hr)) fun hk => h'.keep.imp_right fun hk' =>
      ⟨hk.1.trans hk'.1, hk'.2.trans hk.2⟩,
    fun hinp hpass => (h'.startPass hinp hpass).elim
      (fun hp => (h.startPass hinp hp).imp_right h'.restart) .inr,
    fun hinp hbail => (h'.skip hinp hbail).elim
      (fun hb => (h.skip hinp hb).imp_right h'.restart) .inr,
    events ++ events', by rw [hlog', hlog, List.append_assoc], fun e he =>
      (List.mem_append.mp he).elim (hevents e) (hevents' e)⟩

theorem loopPoint_afterReady (cfg : MainConfig) (s : MainState) :
    (loopPoint cfg s).AfterReady := by
  rw [loopPoint]
  split_ifs <;> exact ⟨nofun, nofun, nofun⟩

theorem TestStep.chooseWindow (cfg : MainConfig) (inp : Input) (s : MainState) (l : CpuState) :
    TestStep inp s (chooseWindow cfg s l).1 ∧ (chooseWindow cfg s l).2.point.AfterReady := by
  rw [Memtest.chooseWindow]
  split_ifs
  · exact ⟨.refl inp s, nofun, nofun, nofun⟩
  · refine ⟨?_, nofun, nofun, nofun⟩
    simpa using TestStep.of_eq inp s _ s.windowStart s.windowEnd s.vm s.mappedWindow
      s.numActiveCpus [] fun e he => absurd he List.not_mem_nil
  · exact ⟨.refl inp s, nofun, nofun, nofun⟩

theorem TestStep.setupWindow (cfg : MainConfig) (inp : Input) (s : MainState) (l : CpuState) :
    TestStep inp s (setupWindow cfg s l).1 ∧ (setupWindow cfg s l).2.point.AfterReady := by
  rw [Memtest.setupWindow]
  split_ifs
  · exact ⟨.refl inp s, nofun, nofun, nofun⟩
  · refine ⟨?_, nofun, nofun, nofun⟩
    simpa using TestStep.of_eq inp s s.windowNum _ _ _ s.mappedWindow
      s.numActiveCpus [] fun e he => absurd he List.not_mem_nil
  · exact ⟨.refl inp s, nofun, nofun, nofun⟩

theorem TestStep.testWindow (cfg : MainConfig) (inp : Input) (s : MainState) (l : CpuState) :
    TestStep inp s (testWindow cfg inp s l).1 ∧
      (testWindow cfg inp s l).2.point.AfterReady := by
  have hloop := loopPoint_afterReady cfg
  have hset : ∀ windowNum mappedWindow,
      TestStep inp s { s with windowNum := windowNum, mappedWindow := mappedWindow } :=
    fun windowNum mappedWindow => by
      simpa using TestStep.of_eq inp s windowNum s.windowStart s.windowEnd s.vm mappedWindow
        s.numActiveCpus [] fun e he => absurd he List.not_mem_nil
  rw [Memtest.testWindow]
  split_ifs
  · exact ⟨.refl inp s, hloop s⟩
  · exact ⟨hset _ s.mappedWindow, hloop _⟩
  · exact ⟨.refl inp s, hloop _⟩
  · exact ⟨.runTest cfg inp s l _ (.inl rfl), hloop _⟩
  · exact ⟨.refl inp s, hloop _⟩
  · split
    · exact ⟨.refl inp s, nofun, nofun, nofun⟩
    · exact ⟨(hset s.windowNum _).trans (.runTest cfg inp _ l _ (.inr rfl)), hloop _⟩
  · split
    · exact ⟨.refl inp s, nofun, nofun, nofun⟩
    · exact ⟨hset s.windowNum _, hloop _⟩

/-- The step that enters `test_all_windows`, if the test is enabled. -/
theorem TestStep.testReady {enabled : Bool} (h : (if enabled = true then
      enterTest cfg true (s.record (.indexTest s.testNum)) l
    else (s.record (.indexTest s.testNum), { l with point := .testDone })) = (s', l')) :
    TestStep inp s s' ∧ l'.point.AfterReady := by
  have hindex : ∀ numActiveCpus, TestStep inp s
      { s.record (.indexTest s.testNum) with numActiveCpus := numActiveCpus } :=
    fun numActiveCpus => .of_eq inp s s.windowNum s.windowStart s.windowEnd s.vm s.mappedWindow
      numActiveCpus _ fun e he => .inl (List.mem_singleton.mp he)
  cases enabled with
  | true =>
    obtain ⟨rfl, rfl⟩ := Prod.mk.inj h
    exact ⟨hindex _, nofun, nofun, nofun⟩
  | false =>
    obtain ⟨rfl, rfl⟩ := Prod.mk.inj h
    exact ⟨hindex s.numActiveCpus, nofun, nofun, nofun⟩

/-- A step inside `test_all_windows`. -/
theorem TestStep.mainStep (hpoint : l.point.InTest)
    (h : mainStep cfg inp (s, l) = some (s', l')) :
    TestStep inp s s' ∧ l'.point.AfterReady := by
  cases hp : l.point with
  | loopTop | runAt | testDone | finished => exact absurd hpoint (by simp [hp, WaitPoint.InTest])
  | testReady =>
    simp only [Memtest.mainStep, segment, hp] at h
    exact TestStep.testReady (Option.some.inj h)
  | windowEntry =>
    have hstep := TestStep.chooseWindow cfg inp s l
    simp only [Memtest.mainStep, segment, hp] at h
    rwa [Option.some.inj h] at hstep
  | windowChosen =>
    have hstep := TestStep.setupWindow cfg inp s l
    simp only [Memtest.mainStep, segment, hp] at h
    rwa [Option.some.inj h] at hstep
  | windowMapped =>
    have hstep := TestStep.testWindow cfg inp s l
    simp only [Memtest.mainStep, segment, hp] at h
    rwa [Option.some.inj h] at hstep

/-- A step, by the wait it starts from. -/
theorem mainStep_cases (h : mainStep cfg inp (s, l) = some (s', l')) :
    (l.point = .loopTop ∧ s' = prologue inp.beyond s ∧ l'.point = .testReady) ∨
    (l.point.InTest ∧ TestStep inp s s' ∧ l'.point.AfterReady) ∨
    ((∃ target, l.point = .runAt target) ∧ s' = s.fetchTest inp.beyond ∧
      l'.point = .loopTop) ∨
    (l.point = .testDone ∧ epilogue cfg inp s = (s', l'.point)) := by
  cases hp : l.point with
  | loopTop =>
    simp only [mainStep, segment, hp, if_true, Option.some.injEq, Prod.mk.injEq] at h
    exact .inl ⟨rfl, h.1.symm, by rw [← h.2]⟩
  | runAt target =>
    simp only [mainStep, segment, hp, Option.some.injEq, Prod.mk.injEq] at h
    exact .inr (.inr (.inl ⟨⟨target, rfl⟩, h.1.symm, by rw [← h.2]⟩))
  | testDone =>
    simp only [mainStep, segment, hp, if_true, Option.some.injEq, Prod.mk.injEq] at h
    exact .inr (.inr (.inr ⟨rfl, by rw [← h.1, ← h.2]⟩))
  | finished => simp [mainStep, segment, hp] at h
  | testReady | windowEntry | windowChosen | windowMapped =>
    exact .inr (.inl ⟨trivial, TestStep.mainStep (hp ▸ trivial) h⟩)

/-! ### The log grows -/

theorem prologue_log (beyond : ℤ) (s : MainState) : s.log <+: (prologue beyond s).log := by
  by_cases hpass : s.startRun = true ∨ s.startPass = true
  · rw [prologue_of_startPass beyond hpass]
    exact List.prefix_append _ _
  · obtain ⟨hrun, hpass⟩ := not_or.mp hpass
    rw [Bool.not_eq_true] at hrun hpass
    cases htest : s.startTest with
    | true =>
      rw [prologue_of_startTest beyond hrun hpass htest]
      exact List.prefix_append _ _
    | false =>
      rw [prologue_of_resume beyond hrun hpass htest, beginStage]
      split_ifs <;> exact List.prefix_refl _

theorem nextTest_log (inp : Input) (s : MainState) : s.log <+: (nextTest inp s).1.log := by
  obtain ⟨_, _, _, _, _, _, _, heq, -⟩ := nextTest_eq inp s
  rw [heq]
  exact List.prefix_append _ _

theorem epilogue_log (cfg : MainConfig) (inp : Input) (s : MainState) :
    s.log <+: (epilogue cfg inp s).1.log := by
  obtain ⟨s₁, hs₁⟩ : ∃ s₁, s₁ = checkInput cfg s inp.menus := ⟨_, rfl⟩
  have hlog : s.log = s₁.log := by rw [hs₁, checkInput_log]
  rw [hlog]
  obtain ⟨-, heq⟩ | ⟨-, -, heq⟩ | ⟨-, -, heq⟩ := epilogue_cases cfg inp s hs₁
  · rw [heq]
    exact List.prefix_append _ _
  · rw [heq]
    exact (List.prefix_append s₁.log _).trans (nextTest_log inp (s₁.record (.indexTest _)))
  · obtain ⟨-, heq'⟩ | ⟨-, -, -, heq'⟩ | ⟨next, -, -, heq'⟩ := endStage_cases cfg inp s₁
    · rw [heq, heq']
      exact List.prefix_append _ _
    · rw [heq, heq']
      exact List.prefix_append _ _
    · rw [heq, heq']
      exact (List.prefix_append s₁.log _).trans (nextTest_log inp (s₁.afterStage 0 next))

/-- Nothing is taken back from the log. -/
theorem mainStep_log (h : mainStep cfg inp (s, l) = some (s', l')) : s.log <+: s'.log := by
  obtain ⟨-, rfl, -⟩ | ⟨-, hstep, -⟩ | ⟨-, rfl, -⟩ | ⟨-, heq⟩ := mainStep_cases h
  · exact prologue_log inp.beyond s
  · obtain ⟨events, hlog, -⟩ := hstep.log
    rw [hlog]
    exact List.prefix_append _ _
  · exact List.prefix_append _ _
  · have hlog := epilogue_log cfg inp s
    rwa [heq] at hlog

theorem mainRun_log {inps : List Input} {t₀ t : MainState × CpuState}
    (h : mainRun cfg inps t₀ = some t) : t₀.1.log <+: t.1.log := by
  refine Executions.exec_invariant (P := fun _ _ => True) (I := fun t => t₀.1.log <+: t.1.log)
    (fun inp s t _ hlog hstep => hlog.trans (mainStep_log hstep)) (fun _ _ _ _ _ _ => trivial)
    (List.prefix_refl _) h

end Memtest
