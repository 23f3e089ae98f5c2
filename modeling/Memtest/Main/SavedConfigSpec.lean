import Memtest.Main.SavedConfig

/-!
# When a saved configuration can be run

What the menus leave behind can be scheduled (`TestConfig.Schedulable`): the sequence is a
permutation of the tests, there is a pass to be made, and a test to be made in it. What a file
leaves behind need not be, and then it is the first run that begins with it, unless a menu has been
used on each thing that is wrong (`FirstRunSound`). From the first run on nothing can go wrong any
more (`schedulable_iff`).
-/

namespace Memtest

open Executions

variable {s s' t : ConfigState} {e : ConfigEvent} {events : List ConfigEvent}

/-! ### The property -/

/-- The main loop can run the tests: each of them stands once in the sequence, there is a pass to
be made, and a test to be made in it. -/
structure TestConfig.Schedulable (c : TestConfig) : Prop where
  perm : c.testSequence.Perm testNumbers
  maxPassNum : 1 ≤ c.maxPassNum
  enabled : c.anyEnabled = true

/-- The user enters a sequence of tests that is accepted. A sequence that is rejected leaves the
old one as it is. -/
def ConfigEvent.SetsSequence : ConfigEvent → Prop
  | .select (.setAllSequence values) => (setAllSequence values).isSome
  | _ => False

/-- The user enters a number of passes that is accepted. -/
def ConfigEvent.SetsCycles : ConfigEvent → Prop
  | .select (.setTestCycleTimes num) => 0 < num
  | _ => False

/-- What a file says can be run as it is, or the user makes good what cannot. The initial menu is
the place for that: entering a sequence or a number of passes replaces what the file says, and the
selection of tests is not left without a test. -/
structure FirstRunSound (content : List UInt8) (events : List ConfigEvent) : Prop where
  perm : (AppConfig.parse content).testSequence.Perm testNumbers ∨ ∃ e ∈ events, e.SetsSequence
  maxPassNum : 1 ≤ (AppConfig.parse content).maxPassNum ∨ ∃ e ∈ events, e.SetsCycles
  enabled : true ∈ (AppConfig.parse content).testEnabled ∨ .openSelection ∈ events

/-! ### One step -/

/-- A test is enabled, or the user is where some test has to be enabled before going on. -/
def ConfigState.SelectsTest (s : ConfigState) : Prop :=
  s.config.anyEnabled = true ∨ ∃ initial, s.screen = .testSelection initial

/-- The program has left `global_init`. -/
def ConfigState.Running (s : ConfigState) : Prop :=
  s.screen = .mainLoop ∨ s.screen = .configMenu false ∨ s.screen = .testSelection false

@[simp] theorem startProgram_config (s : ConfigState) : s.startProgram.config = s.config := rfl

@[simp] theorem setEnabled_screen (s : ConfigState) (n1 n2 : ℤ) (enabled : Bool) :
    (s.setEnabled n1 n2 enabled).screen = s.screen := rfl

@[simp] theorem leaveMenu_config (s : ConfigState) (initial : Bool) :
    (leaveMenu s initial).config = s.config := by
  unfold leaveMenu
  split_ifs <;> rfl

@[simp] theorem leaveMenu_screen (s : ConfigState) (initial : Bool) :
    (leaveMenu s initial).screen = .mainLoop := by
  unfold leaveMenu
  split_ifs <;> rfl

@[simp] theorem leaveMenu_runs (s : ConfigState) (initial : Bool) :
    (leaveMenu s initial).runs = s.runs := by
  unfold leaveMenu
  split_ifs <;> rfl

theorem leaveMenu_startRun (s : ConfigState) (initial : Bool) :
    (leaveMenu s initial).startRun = (initial || s.startRun) := by
  unfold leaveMenu
  cases initial <;> cases s.restart <;> rfl

/-- What a key in `test_selection_menu` does to the rest of the program. -/
theorem selectionKey_frame (s : ConfigState) (key : SelectionKey) :
    (selectionKey s key).screen = s.screen ∧ (selectionKey s key).runs = s.runs ∧
      (selectionKey s key).startRun = s.startRun := by
  cases key with
  | setAllTests => exact ⟨rfl, rfl, rfl⟩
  | addOrRemoveTest | setTestCycleTimes =>
    rw [selectionKey]
    split_ifs <;> exact ⟨rfl, rfl, rfl⟩
  | addTestRange =>
    rw [selectionKey]
    split_ifs <;> exact ⟨rfl, rfl, rfl⟩
  | setAllSequence values =>
    rw [selectionKey]
    cases Memtest.setAllSequence values <;> exact ⟨rfl, rfl, rfl⟩
  | continueOnError => exact ⟨rfl, rfl, rfl⟩

/-- An accepted sequence is a permutation of the tests. -/
theorem TestSequence.map_perm (sequence : TestSequence) :
    (sequence.order.map Nat.cast : List ℤ).Perm testNumbers :=
  sequence.perm.map _

theorem selectionKey_perm_iff (s : ConfigState) (key : SelectionKey) :
    (selectionKey s key).config.testSequence.Perm testNumbers ↔
      s.config.testSequence.Perm testNumbers ∨ (ConfigEvent.select key).SetsSequence := by
  have hother : ∀ {key}, ¬(ConfigEvent.select key).SetsSequence →
      (selectionKey s key).config.testSequence = s.config.testSequence →
      ((selectionKey s key).config.testSequence.Perm testNumbers ↔
        s.config.testSequence.Perm testNumbers ∨ (ConfigEvent.select key).SetsSequence) :=
    fun hnot heq => by rw [heq, or_iff_left hnot]
  cases key with
  | setAllTests => exact hother id rfl
  | addOrRemoveTest | addTestRange | setTestCycleTimes =>
    refine hother id ?_
    rw [selectionKey]
    split_ifs <;> rfl
  | continueOnError => exact hother id rfl
  | setAllSequence values =>
    cases hvalues : Memtest.setAllSequence values with
    | none =>
      refine hother (by simp [ConfigEvent.SetsSequence, hvalues]) ?_
      rw [selectionKey, hvalues]
      rfl
    | some sequence =>
      refine iff_of_true ?_ (.inr (by simp [ConfigEvent.SetsSequence, hvalues]))
      rw [selectionKey, hvalues]
      exact sequence.map_perm

theorem selectionKey_maxPassNum_iff (s : ConfigState) (key : SelectionKey) :
    1 ≤ (selectionKey s key).config.maxPassNum ↔
      1 ≤ s.config.maxPassNum ∨ (ConfigEvent.select key).SetsCycles := by
  have hother : ∀ {key}, ¬(ConfigEvent.select key).SetsCycles →
      (selectionKey s key).config.maxPassNum = s.config.maxPassNum →
      (1 ≤ (selectionKey s key).config.maxPassNum ↔
        1 ≤ s.config.maxPassNum ∨ (ConfigEvent.select key).SetsCycles) :=
    fun hnot heq => by rw [heq, or_iff_left hnot]
  cases key with
  | setAllTests => exact hother id rfl
  | addOrRemoveTest | addTestRange =>
    refine hother id ?_
    rw [selectionKey]
    split_ifs <;> rfl
  | continueOnError => exact hother id rfl
  | setAllSequence values =>
    refine hother id ?_
    rw [selectionKey]
    cases Memtest.setAllSequence values <;> rfl
  | setTestCycleTimes num =>
    by_cases hnum : num > 0
    · simp only [selectionKey, if_pos hnum, ConfigEvent.SetsCycles]
      omega
    · exact hother hnum (by rw [selectionKey, if_neg hnum])

/-- A step that is neither a key in the selection menu nor the top of the main loop. -/
structure QuietStep (e : ConfigEvent) (s s' : ConfigState) : Prop where
  config : s'.config = s.config
  runs : s'.runs = s.runs
  startRun : s.startRun = true → s'.startRun = true
  event : ¬e.SetsSequence ∧ ¬e.SetsCycles ∧ e ≠ .beginTrip
  selectsTest : s'.SelectsTest ↔ s.SelectsTest ∨ e = .openSelection
  running : s'.Running → s.Running ∨ s'.startRun = true

/-- A step in which only the screen changes, and the user selects tests neither before nor after. -/
theorem QuietStep.of_screen (hconfig : s'.config = s.config) (hruns : s'.runs = s.runs)
    (hstart : s.startRun = true → s'.startRun = true)
    (hevent : ¬e.SetsSequence ∧ ¬e.SetsCycles ∧ e ≠ .beginTrip) (he : e ≠ .openSelection)
    (hscreen : ∀ initial, s.screen ≠ .testSelection initial ∧ s'.screen ≠ .testSelection initial)
    (hrunning : s'.Running → s.Running ∨ s'.startRun = true) : QuietStep e s s' where
  config := hconfig
  runs := hruns
  startRun := hstart
  event := hevent
  selectsTest := by
    rw [or_iff_left he, ConfigState.SelectsTest, ConfigState.SelectsTest, hconfig]
    exact or_congr_right ⟨fun ⟨i, hi⟩ => absurd hi (hscreen i).2, fun ⟨i, hi⟩ =>
      absurd hi (hscreen i).1⟩
  running := hrunning

/-! ### The steps that leave the configuration alone

Each of the other events is quiet: it changes the screen, or whether a run is to be started, and
nothing that a run needs. -/

theorem quietStep_endNotice (h : configStep .endNotice s = some s') :
    QuietStep .endNotice s s' := by
  obtain ⟨hscreen, h⟩ := Option.ite_none_right_eq_some.mp h
  obtain rfl := Option.some.inj h
  refine .of_screen rfl rfl (fun _ => rfl) ⟨id, id, nofun⟩ nofun (fun i => ?_) fun _ => .inr rfl
  rw [hscreen]
  exact ⟨nofun, nofun⟩

theorem quietStep_openMenu (h : configStep .openMenu s = some s') : QuietStep .openMenu s s' := by
  rw [configStep] at h
  split at h
  · next hscreen =>
    obtain rfl := Option.some.inj h
    refine .of_screen rfl rfl id ⟨id, id, nofun⟩ nofun (fun i => ?_) nofun
    rw [hscreen]
    exact ⟨nofun, nofun⟩
  · next hscreen =>
    obtain rfl := Option.some.inj h
    refine .of_screen rfl rfl id ⟨id, id, nofun⟩ nofun (fun i => ?_) fun _ => .inl (.inl hscreen)
    rw [hscreen]
    exact ⟨nofun, nofun⟩
  · exact absurd h nofun

theorem quietStep_openSelection (h : configStep .openSelection s = some s') :
    QuietStep .openSelection s s' := by
  rw [configStep] at h
  split at h
  · next initial hscreen =>
    obtain rfl := Option.some.inj h
    refine ⟨rfl, rfl, id, ⟨id, id, nofun⟩, iff_of_true (.inr ⟨initial, rfl⟩) (.inr rfl),
      fun hrunning => .inl ?_⟩
    cases initial with
    | false => exact .inr (.inl hscreen)
    | true => simp [ConfigState.Running] at hrunning
  · exact absurd h nofun

/-- The menu of the tests can be left only when some test is enabled. -/
theorem quietStep_leaveSelection (h : configStep .leaveSelection s = some s') :
    QuietStep .leaveSelection s s' := by
  rw [configStep] at h
  split at h
  · next initial hscreen =>
    by_cases hany : s.config.anyEnabled = true
    · rw [if_pos hany] at h
      obtain rfl := Option.some.inj h
      refine ⟨rfl, rfl, id, ⟨id, id, nofun⟩, iff_of_true (.inl hany) (.inl (.inl hany)),
        fun hrunning => .inl ?_⟩
      cases initial with
      | false => exact .inr (.inr hscreen)
      | true => simp [ConfigState.Running] at hrunning
    · rw [if_neg hany] at h
      obtain rfl := Option.some.inj h
      exact ⟨rfl, rfl, id, ⟨id, id, nofun⟩, (or_iff_left nofun).symm, .inl⟩
  · exact absurd h nofun

theorem quietStep_otherMenu {restart : Bool} (h : configStep (.otherMenu restart) s = some s') :
    QuietStep (.otherMenu restart) s s' := by
  rw [configStep] at h
  split at h
  · obtain rfl := Option.some.inj h
    exact ⟨rfl, rfl, id, ⟨id, id, nofun⟩, (or_iff_left nofun).symm, .inl⟩
  · exact absurd h nofun

theorem quietStep_leaveMenu (h : configStep .leaveMenu s = some s') :
    QuietStep .leaveMenu s s' := by
  rw [configStep] at h
  split at h
  · next initial hscreen =>
    obtain rfl := Option.some.inj h
    refine .of_screen (leaveMenu_config s initial) (leaveMenu_runs s initial) (fun hstart => ?_)
      ⟨id, id, nofun⟩ nofun (fun i => ?_) fun _ => ?_
    · rw [leaveMenu_startRun, hstart, Bool.or_true]
    · rw [hscreen, leaveMenu_screen]
      exact ⟨nofun, nofun⟩
    · cases initial with
      | false => exact .inl (.inr (.inl hscreen))
      | true => exact .inr (leaveMenu_startRun s true)
  · exact absurd h nofun

/-- What stays in the main loop, and asks for a run only if one was asked for, is quiet. -/
theorem QuietStep.of_mainLoop (hscreen : s.screen = .mainLoop) (hscreen' : s'.screen = s.screen)
    (hconfig : s'.config = s.config) (hruns : s'.runs = s.runs)
    (hstart : s.startRun = true → s'.startRun = true)
    (hevent : ¬e.SetsSequence ∧ ¬e.SetsCycles ∧ e ≠ .beginTrip) (hopen : e ≠ .openSelection) :
    QuietStep e s s' := by
  refine .of_screen hconfig hruns hstart hevent hopen (fun i => ?_) fun _ => .inl (.inl hscreen)
  rw [hscreen', hscreen]
  exact ⟨nofun, nofun⟩

theorem quietStep_handleRestart (h : configStep .handleRestart s = some s') :
    QuietStep .handleRestart s s' := by
  obtain ⟨⟨hscreen, -⟩, h⟩ := Option.ite_none_right_eq_some.mp h
  obtain rfl := Option.some.inj h
  have hkeeps : (handleRestart s).screen = s.screen ∧ (handleRestart s).config = s.config ∧
      (handleRestart s).runs = s.runs ∧
        (s.startRun = true → (handleRestart s).startRun = true) := by
    unfold handleRestart
    split_ifs
    · exact ⟨rfl, rfl, rfl, fun _ => rfl⟩
    · exact ⟨rfl, rfl, rfl, id⟩
  obtain ⟨hscreen', hconfig, hruns, hstart⟩ := hkeeps
  exact .of_mainLoop hscreen hscreen' hconfig hruns hstart ⟨id, id, nofun⟩ nofun

theorem quietStep_endPass {noErrors : Bool} (h : configStep (.endPass noErrors) s = some s') :
    QuietStep (.endPass noErrors) s s' := by
  obtain ⟨⟨hscreen, -⟩, h⟩ := Option.ite_none_right_eq_some.mp h
  obtain rfl := Option.some.inj h
  have hkeeps : (finishPass noErrors s).screen = s.screen ∧
      (finishPass noErrors s).config = s.config ∧ (finishPass noErrors s).runs = s.runs ∧
        (s.startRun = true → (finishPass noErrors s).startRun = true) := by
    dsimp only [finishPass]
    split_ifs
    · exact ⟨rfl, rfl, rfl, fun _ => rfl⟩
    · exact ⟨rfl, rfl, rfl, id⟩
  obtain ⟨hscreen', hconfig, hruns, hstart⟩ := hkeeps
  exact .of_mainLoop hscreen hscreen' hconfig hruns hstart ⟨id, id, nofun⟩ nofun

/-- What a step can be: a key in the menu of the tests, a trip through the main loop, or an event
that is quiet. -/
theorem configStep_cases (h : configStep e s = some s') :
    (∃ key initial, e = .select key ∧ s.screen = .testSelection initial ∧
        s' = selectionKey s key) ∨
      (e = .beginTrip ∧ s.screen = .mainLoop ∧ s' = beginTrip s) ∨ QuietStep e s s' := by
  cases e with
  | endNotice => exact .inr (.inr (quietStep_endNotice h))
  | openMenu => exact .inr (.inr (quietStep_openMenu h))
  | openSelection => exact .inr (.inr (quietStep_openSelection h))
  | select key =>
    rw [configStep] at h
    split at h
    · next initial hscreen => exact .inl ⟨key, initial, rfl, hscreen, (Option.some.inj h).symm⟩
    · exact absurd h nofun
  | leaveSelection => exact .inr (.inr (quietStep_leaveSelection h))
  | otherMenu restart => exact .inr (.inr (quietStep_otherMenu h))
  | leaveMenu => exact .inr (.inr (quietStep_leaveMenu h))
  | beginTrip =>
    obtain ⟨⟨hscreen, -⟩, h⟩ := Option.ite_none_right_eq_some.mp h
    obtain rfl := Option.some.inj h
    exact .inr (.inl ⟨rfl, hscreen, rfl⟩)
  | handleRestart => exact .inr (.inr (quietStep_handleRestart h))
  | endPass noErrors => exact .inr (.inr (quietStep_endPass h))

theorem selectsTest_selectionKey (key : SelectionKey) {initial : Bool}
    (hscreen : s.screen = .testSelection initial) : (selectionKey s key).SelectsTest :=
  .inr ⟨initial, (selectionKey_frame s key).1.trans hscreen⟩

/-- What the steps do to what a run needs, as long as none is at the top of the main loop. -/
structure Prepares (events : List ConfigEvent) (s t : ConfigState) : Prop where
  runs : t.runs = s.runs
  perm : t.config.testSequence.Perm testNumbers ↔
    s.config.testSequence.Perm testNumbers ∨ ∃ e ∈ events, e.SetsSequence
  maxPassNum : 1 ≤ t.config.maxPassNum ↔ 1 ≤ s.config.maxPassNum ∨ ∃ e ∈ events, e.SetsCycles
  selectsTest : t.SelectsTest ↔ s.SelectsTest ∨ .openSelection ∈ events
  startRun : (s.Running → s.startRun = true) → t.Running → t.startRun = true

theorem Prepares.step (h : configStep e s = some s') (he : e ≠ .beginTrip) :
    Prepares [e] s s' := by
  obtain ⟨key, initial, rfl, hscreen, rfl⟩ | ⟨rfl, -, -⟩ | hquiet := configStep_cases h
  · obtain ⟨hscreen', hruns, hstart⟩ := selectionKey_frame s key
    refine ⟨hruns, ?_, ?_, iff_of_true (selectsTest_selectionKey key hscreen)
      (.inl (.inr ⟨initial, hscreen⟩)), fun hrun hrunning => ?_⟩
    · simpa using selectionKey_perm_iff s key
    · simpa using selectionKey_maxPassNum_iff s key
    · rw [hstart]
      refine hrun ?_
      rwa [ConfigState.Running, hscreen'] at hrunning
  · exact absurd rfl he
  · obtain ⟨hsequence, hcycles, -⟩ := hquiet.event
    refine ⟨hquiet.runs, ?_, ?_, ?_, fun hrun hrunning => ?_⟩
    · simp [hquiet.config, hsequence]
    · simp [hquiet.config, hcycles]
    · simpa [eq_comm] using hquiet.selectsTest
    · exact (hquiet.running hrunning).elim (fun hs => hquiet.startRun (hrun hs)) id

theorem Prepares.refl (s : ConfigState) : Prepares [] s s :=
  ⟨rfl, by simp, by simp, by simp, id⟩

theorem Prepares.cons (h : Prepares [e] s s') (h' : Prepares events s' t) :
    Prepares (e :: events) s t where
  runs := h'.runs.trans h.runs
  perm := by
    rw [h'.perm, h.perm, or_assoc]
    simp
  maxPassNum := by
    rw [h'.maxPassNum, h.maxPassNum, or_assoc]
    simp
  selectsTest := by
    rw [h'.selectsTest, h.selectsTest, or_assoc]
    simp
  startRun hs := h'.startRun (h.startRun hs)

theorem Prepares.exec (h : exec configStep events s = some t)
    (hevents : .beginTrip ∉ events) : Prepares events s t := by
  induction events generalizing s with
  | nil => exact Option.some.inj h ▸ .refl s
  | cons e events ih =>
    obtain ⟨hhead, htail⟩ := not_or.mp (mt List.mem_cons.mpr hevents)
    obtain ⟨u, hu, h⟩ := exec_cons_eq_some.mp h
    exact (Prepares.step hu (Ne.symm hhead)).cons (ih h htail)

/-! ### Runs -/

/-- A run could begin now, or as soon as the user has left the selection menu, and so it could
whenever one has begun. -/
structure ConfigState.Sound (s : ConfigState) : Prop where
  perm : s.config.testSequence.Perm testNumbers
  maxPassNum : 1 ≤ s.config.maxPassNum
  selectsTest : s.SelectsTest
  runs : ∀ c ∈ s.runs, c.Schedulable

theorem ConfigState.SelectsTest.anyEnabled (h : s.SelectsTest) (hscreen : s.screen = .mainLoop) :
    s.config.anyEnabled = true := by
  obtain h | ⟨initial, h⟩ := h
  · exact h
  · exact absurd (hscreen.symm.trans h) nofun

theorem ConfigState.Sound.schedulable (h : s.Sound) (hscreen : s.screen = .mainLoop) :
    s.config.Schedulable :=
  ⟨h.perm, h.maxPassNum, h.selectsTest.anyEnabled hscreen⟩

theorem beginTrip_config (s : ConfigState) : (beginTrip s).config = s.config := by
  unfold beginTrip
  split_ifs <;> rfl

theorem beginTrip_screen (s : ConfigState) : (beginTrip s).screen = s.screen := by
  unfold beginTrip
  split_ifs <;> rfl

theorem beginTrip_runs (s : ConfigState) :
    (beginTrip s).runs = s.runs ++ if s.startRun then [s.config] else [] := by
  unfold beginTrip
  split_ifs
  · rfl
  · exact (List.append_nil _).symm

/-- Every step keeps a sound configuration sound. -/
theorem ConfigState.Sound.step (h : s.Sound) (hstep : configStep e s = some s') : s'.Sound := by
  by_cases he : e = .beginTrip
  · obtain ⟨key, initial, rfl, -⟩ | ⟨rfl, hscreen, rfl⟩ | hquiet := configStep_cases hstep
    · exact absurd he nofun
    · refine ⟨?_, ?_, ?_, fun c hc => ?_⟩
      · rw [beginTrip_config]
        exact h.perm
      · rw [beginTrip_config]
        exact h.maxPassNum
      · rw [ConfigState.SelectsTest, beginTrip_config, beginTrip_screen]
        exact h.selectsTest
      · rw [beginTrip_runs] at hc
        obtain hc | hc := List.mem_append.mp hc
        · exact h.runs c hc
        · split_ifs at hc
          · rw [List.mem_singleton.mp hc]
            exact h.schedulable hscreen
          · exact absurd hc List.not_mem_nil
    · exact absurd he hquiet.event.2.2
  · have hprep := Prepares.step hstep he
    refine ⟨hprep.perm.mpr (.inl h.perm), hprep.maxPassNum.mpr (.inl h.maxPassNum),
      hprep.selectsTest.mpr (.inl h.selectsTest), ?_⟩
    rw [hprep.runs]
    exact h.runs

/-- What has been recorded stays. -/
theorem runs_prefix_of_exec (h : exec configStep events s = some t) : s.runs <+: t.runs := by
  induction events generalizing s with
  | nil => exact Option.some.inj h ▸ List.prefix_refl _
  | cons e events ih =>
    obtain ⟨u, hu, h⟩ := exec_cons_eq_some.mp h
    refine List.IsPrefix.trans ?_ (ih h)
    by_cases he : e = .beginTrip
    · obtain ⟨key, initial, rfl, -⟩ | ⟨rfl, -, rfl⟩ | hquiet := configStep_cases hu
      · exact absurd he nofun
      · rw [beginTrip_runs]
        exact List.prefix_append _ _
      · exact absurd he hquiet.event.2.2
    · exact (Prepares.step hu he).runs ▸ List.prefix_refl _

/-- What `initial_config` takes from a file it accepts. -/
theorem initialConfig_eq {content : List UInt8} (haccepted : configAccepted content = true)
    (c : TestConfig) :
    (initialConfig content c).testSequence = (AppConfig.parse content).testSequence ∧
      (initialConfig content c).maxPassNum = (AppConfig.parse content).maxPassNum ∧
      ((initialConfig content c).anyEnabled = true ↔
        true ∈ (AppConfig.parse content).testEnabled) := by
  have hget : ∀ i (hi : i < numTestPatterns),
      (initialConfig content c).testEnabled i = (fieldAt content (13 + i) 1 != 0) := by
    intro i hi
    rw [initialConfig, if_pos haccepted]
    simp [AppConfig.parse, hi]
  rw [initialConfig, if_pos haccepted] at hget ⊢
  refine ⟨rfl, rfl, ?_⟩
  simp only [TestConfig.anyEnabled, testNumbers, List.any_map, List.any_eq_true, List.mem_range,
    Function.comp_apply, AppConfig.parse, List.mem_map]
  exact exists_congr fun i => and_congr_right fun hi => by rw [← hget i hi]; rfl

theorem firstRunSound_iff {content : List UInt8} {c : TestConfig} {before : List ConfigEvent}
    (haccepted : configAccepted content = true)
    (hprep : Prepares before (.boot (initialConfig content c)) t) (hscreen : t.screen = .mainLoop) :
    t.config.Schedulable ↔ FirstRunSound content before := by
  obtain ⟨hsequence, hcycles, hany⟩ := initialConfig_eq haccepted c
  have hselects : t.config.anyEnabled = true ↔
      true ∈ (AppConfig.parse content).testEnabled ∨ .openSelection ∈ before := by
    have hboot : (ConfigState.boot (initialConfig content c)).SelectsTest ↔
        true ∈ (AppConfig.parse content).testEnabled :=
      ⟨fun h => h.elim hany.mp fun ⟨i, hi⟩ => absurd hi nofun, fun h => .inl (hany.mpr h)⟩
    rw [← hboot, ← hprep.selectsTest]
    exact ⟨.inl, fun h => h.anyEnabled hscreen⟩
  have hperm := hprep.perm
  have hmax := hprep.maxPassNum
  rw [ConfigState.boot, hsequence] at hperm
  rw [ConfigState.boot, hcycles] at hmax
  exact ⟨fun h => ⟨hperm.mp h.perm, hmax.mp h.maxPassNum, hselects.mp h.enabled⟩,
    fun h => ⟨hperm.mpr h.perm, hmax.mpr h.maxPassNum, hselects.mpr h.enabled⟩⟩

/-- **Saved configurations.** After a file has been loaded, what each run begins with can be
scheduled exactly if what the first one begins with can: it is what the file says, less what the
user has made good until then.

The content is that of any file that `initial_config` accepts, of which only the size and the
magic number are checked. The events are all the user does in the menus, before the first run and
later, in any order the screens allow; runs begin again whenever a menu has changed something that
needs a restart. -/
theorem schedulable_iff (content : List UInt8) (c : TestConfig) (events : List ConfigEvent)
    (t : ConfigState) (haccepted : configAccepted content = true)
    (hrun : exec configStep events (.boot (initialConfig content c)) = some t) :
    (∀ c' ∈ t.runs, c'.Schedulable) ↔
      ∀ before after, events = before ++ .beginTrip :: after → .beginTrip ∉ before →
        FirstRunSound content before := by
  -- the first time at the top of the main loop a run begins
  have hfirst : ∀ before after, events = before ++ .beginTrip :: after → .beginTrip ∉ before →
      ∃ u, Prepares before (.boot (initialConfig content c)) u ∧ u.screen = .mainLoop ∧
        u.startRun = true ∧ configStep .beginTrip u = some (beginTrip u) ∧
          exec configStep after (beginTrip u) = some t := by
    intro before after hevents hbefore
    rw [hevents] at hrun
    obtain ⟨u, hu, hrun⟩ := exec_append_eq_some.mp hrun
    obtain ⟨v, hv, hrun⟩ := exec_cons_eq_some.mp hrun
    obtain ⟨⟨hscreen, -⟩, hstep⟩ := Option.ite_none_right_eq_some.mp hv
    obtain rfl := Option.some.inj hstep
    have hprep := Prepares.exec hu hbefore
    have hboot : ¬(ConfigState.boot (initialConfig content c)).Running := by
      simp [ConfigState.Running, ConfigState.boot]
    exact ⟨u, hprep, hscreen, hprep.startRun (fun h => absurd h hboot) (.inl hscreen), hv, hrun⟩
  constructor
  · intro hall before after hevents hbefore
    obtain ⟨u, hprep, hscreen, hstart, -, hrest⟩ := hfirst before after hevents hbefore
    refine (firstRunSound_iff haccepted hprep hscreen).mp (hall _ ?_)
    refine (runs_prefix_of_exec hrest).subset ?_
    rw [beginTrip_runs, hstart, if_pos rfl]
    exact List.mem_append_right _ List.mem_cons_self
  · intro hall
    by_cases hmem : .beginTrip ∈ events
    · obtain ⟨before, after, hevents, hbefore⟩ := List.eq_append_cons_of_mem hmem
      obtain ⟨u, hprep, hscreen, -, hstep, hrest⟩ := hfirst before after hevents hbefore
      have hconfig := (firstRunSound_iff haccepted hprep hscreen).mpr
        (hall before after hevents hbefore)
      have hsound : u.Sound := by
        refine ⟨hconfig.perm, hconfig.maxPassNum, .inl hconfig.enabled, fun c' hc' => ?_⟩
        rw [hprep.runs] at hc'
        exact absurd hc' List.not_mem_nil
      exact (exec_invariant (P := fun _ _ => True) (fun _ _ _ _ h hstep => h.step hstep)
        (.of_forall fun _ _ _ => trivial) (hsound.step hstep) hrest).runs
    · rw [(Prepares.exec hrun hmem).runs]
      exact fun c' hc' => absurd hc' List.not_mem_nil

/-- The configuration that the program starts with. -/
def TestConfig.default : TestConfig where
  maxPassNum := 1
  continueOnError := false
  testEnabled _ := true
  testSequence := testNumbers
  langCn := true

/-- The program saves its configuration and starts again, and the user asks for three passes. -/
theorem schedulable_default :
    ∃ t, exec configStep [.openMenu, .openSelection, .select (.setTestCycleTimes 3),
        .leaveSelection, .leaveMenu, .beginTrip]
        (.boot (initialConfig (saveAppConfig .default).encode .default)) = some t ∧
      ∀ c ∈ t.runs, c.Schedulable :=
  ⟨_, rfl, (schedulable_iff (saveAppConfig .default).encode .default
    [.openMenu, .openSelection, .select (.setTestCycleTimes 3), .leaveSelection, .leaveMenu,
      .beginTrip] _ (by decide) rfl).mpr fun before after hevents hbefore =>
        ⟨.inl (by decide), .inl (by decide), .inl (by decide)⟩⟩

/-- A file of the right size with the right magic number. -/
def zeroConfig : AppConfig where
  magic := appConfigMagic
  version := appConfigVersion
  maxPassNum := 0
  continueOnError := false
  testEnabled := List.replicate numTestPatterns false
  testSequence := List.replicate numTestPatterns 0
  language := 1

/-- With this file the first run begins with one test, twelve times, that is not enabled, and with
no pass to be made. -/
theorem not_schedulable_zeroConfig :
    configAccepted zeroConfig.encode = true ∧
      ∃ t, exec configStep [.endNotice, .beginTrip]
          (.boot (initialConfig zeroConfig.encode .default)) = some t ∧
        ¬∀ c ∈ t.runs,
          c.testSequence.Perm testNumbers ∨ 1 ≤ c.maxPassNum ∨ c.anyEnabled = true := by
  refine ⟨by decide, _, rfl, fun h => ?_⟩
  have hfirst := h (initialConfig zeroConfig.encode .default) List.mem_cons_self
  exact absurd hfirst (by decide)

/-! ### What the program saves itself -/

/-- A saved configuration that can be scheduled can be scheduled when it is loaded again. -/
theorem TestConfig.Schedulable.reload {c : TestConfig} (h : c.Schedulable)
    (hmax : c.maxPassNum < 2 ^ 31) (c₀ : TestConfig) :
    (initialConfig (saveAppConfig c).encode c₀).Schedulable := by
  have hmem : ∀ n ∈ c.testSequence, -2 ^ 31 ≤ n ∧ n < (2 ^ 31 : ℤ) := by
    intro n hn
    obtain ⟨i, hi, rfl⟩ := List.mem_map.mp (h.perm.mem_iff.mp hn)
    have := List.mem_range.mp hi
    unfold numTestPatterns at this
    omega
  have hwell : (saveAppConfig c).WellFormed := by
    refine ⟨(by decide : appConfigMagic < 2 ^ 32), (by decide : appConfigVersion < 2 ^ 32),
      ⟨?_, hmax⟩, by simp [saveAppConfig, testNumbers], ?_, hmem, ?_⟩
    · exact (by decide : (-2 ^ 31 : ℤ) ≤ 1).trans h.maxPassNum
    · rw [saveAppConfig, h.perm.length_eq, testNumbers, List.length_map, List.length_range]
    · change -2 ^ 31 ≤ (if c.langCn then 1 else 0 : ℤ) ∧ (if c.langCn then 1 else 0 : ℤ) < 2 ^ 31
      split_ifs <;> decide
  have hparse := AppConfig.parse_encode hwell
  have hlength : (saveAppConfig c).encode.length = appConfigSize := by
    simp [AppConfig.encode, List.length_flatMap, hwell.testEnabled, hwell.length_testSequence,
      numTestPatterns, appConfigSize]
  have haccepted : configAccepted (saveAppConfig c).encode = true := by
    rw [configAccepted, hparse, hlength]
    rfl
  obtain ⟨hsequence, hcycles, hany⟩ := initialConfig_eq haccepted c₀
  rw [hparse] at hsequence hcycles hany
  refine ⟨hsequence ▸ h.perm, hcycles ▸ h.maxPassNum, hany.mpr ?_⟩
  obtain ⟨n, hn, henabled⟩ := List.any_eq_true.mp h.enabled
  exact List.mem_map.mpr ⟨n, hn, henabled⟩

/-! ### The globals of the main loop -/

/-- The configuration, as the main loop has it. -/
structure ConfigState.Matches (s : ConfigState) (m : MainState) : Prop where
  testEnabled : s.config.testEnabled = m.enabled
  testSequence : s.config.testSequence = m.testSequence.order.map Nat.cast
  maxPassNum : s.config.maxPassNum = m.maxPassNum
  passNum : s.passNum = m.passNum
  startPass : s.startPass = m.startPass
  restart : s.restart = m.restart

/-- A key of `test_selection_menu` among the actions in the menus. -/
def SelectionKey.action : SelectionKey → MenuAction
  | .setAllTests enabled => .setAllTests enabled
  | .addOrRemoveTest n add => .addOrRemoveTest n add
  | .addTestRange n1 n2 => .addTestRange n1 n2
  | .setAllSequence values => .setAllSequence values
  | .setTestCycleTimes num => .setTestCycleTimes num
  | .continueOnError => .other

theorem ConfigState.Matches.setEnabled {m : MainState} (h : s.Matches m) (n1 n2 : ℤ)
    (enabled : Bool) : (s.setEnabled n1 n2 enabled).Matches (m.setEnabled n1 n2 enabled) where
  testEnabled := by
    funext n
    exact congrArg (fun f : ℤ → Bool => if n1 ≤ n ∧ n ≤ n2 then enabled else f n) h.testEnabled
  testSequence := h.testSequence
  maxPassNum := h.maxPassNum
  passNum := h.passNum
  startPass := h.startPass
  restart := rfl

/-- A key in the menu does the same to both. -/
theorem ConfigState.Matches.selectionKey {m : MainState} (h : s.Matches m) (cfg : MainConfig)
    (key : SelectionKey) : (selectionKey s key).Matches (menuAction cfg m key.action) := by
  cases key with
  | setAllTests enabled => exact h.setEnabled 0 _ enabled
  | addOrRemoveTest n add =>
    simp only [Memtest.selectionKey, SelectionKey.action, menuAction]
    split_ifs
    · exact h
    · exact h.setEnabled n n add
  | addTestRange n1 n2 =>
    simp only [Memtest.selectionKey, SelectionKey.action, menuAction]
    split_ifs
    · exact h
    · exact h
    · exact h.setEnabled n1 n2 true
  | setAllSequence values =>
    simp only [Memtest.selectionKey, SelectionKey.action, menuAction]
    cases Memtest.setAllSequence values with
    | none => exact ⟨h.testEnabled, h.testSequence, h.maxPassNum, h.passNum, rfl, h.restart⟩
    | some sequence => exact ⟨h.testEnabled, rfl, h.maxPassNum, h.passNum, rfl, rfl⟩
  | setTestCycleTimes num =>
    simp only [Memtest.selectionKey, SelectionKey.action, menuAction]
    by_cases hnum : num > 0
    · rw [if_pos hnum, if_pos hnum]
      exact ⟨h.testEnabled, h.testSequence, (Int.toNat_of_nonneg hnum.le).symm, rfl, h.startPass,
        rfl⟩
    · rw [if_neg hnum, if_neg hnum]
      exact ⟨h.testEnabled, h.testSequence, h.maxPassNum, h.passNum, h.startPass, rfl⟩
  | continueOnError =>
    exact ⟨h.testEnabled, h.testSequence, h.maxPassNum, h.passNum, h.startPass, h.restart⟩

end Memtest
