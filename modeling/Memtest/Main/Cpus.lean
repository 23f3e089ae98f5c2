import Memtest.Lib.Lockstep
import Memtest.Main.Pass

/-!
# The CPUs at `start_barrier`

All CPUs run `main`, and each of them goes from one wait at `start_barrier` to the next. The barrier
lets them go on when all of them have come to it, wherever in the program it is that they wait. In
a round every CPU takes its `segment`; the order is arbitrary.

The CPUs stay together as long as they wait at one point. `waitTogether_iff` says when they do: the
one point where they part is a window that `map_window` refuses in the middle of the memory. The
CPUs that take part in the test leave `test_all_windows`, the others go on to the next window.
-/

namespace Memtest

variable {cfg : MainConfig} {inp : Input} {s s' : MainState}

/-! ### The system -/

/-- What comes from outside in a round, and the order in which the CPUs run. -/
structure CpuRound (cfg : MainConfig) where
  input : Input
  order : List ℕ
  perm : order.Perm cfg.enabledCpus

/-- What a CPU does in a round. -/
def cpuSegment (cfg : MainConfig) (inp : Input) (cpu : ℕ) (s : MainState) (l : CpuState) :
    Option (MainState × CpuState) :=
  segment cfg inp (cpu == 0) (cpu == s.masterCpu) s l

/-- A round, in which each running CPU goes from its wait to the next one, in the order of the
round. There is none when CPU 0 has `finished`. -/
def cpusStep (cfg : MainConfig) (r : CpuRound cfg) :
    MainState × (ℕ → CpuState) → Option (MainState × (ℕ → CpuState)) :=
  Lockstep.round (cpuSegment cfg r.input) r.order

/-- Several rounds. -/
def cpusRun (cfg : MainConfig) : List (CpuRound cfg) → MainState × (ℕ → CpuState) →
    Option (MainState × (ℕ → CpuState)) :=
  Executions.exec (cpusStep cfg)

/-- All CPUs wait at one point. When the last pass has finished, CPU 0 waits no more, and the
others are in front of the next trip: this is the one state in which they differ without harm,
because the program has come to its end. -/
def WaitTogether (cfg : MainConfig) (ls : ℕ → CpuState) : Prop :=
  ∃ point, ∀ cpu ∈ cfg.enabledCpus, (ls cpu).point = point ∨
    cpu = 0 ∧ (ls cpu).point = .finished ∧ point = .loopTop

/-- The state in which the CPUs come to the main loop: CPU 0 with the globals that `global_init`
has left, all of them in front of the loop, and running the same copy of the program. -/
structure CpusInitial (cfg : MainConfig) (u : MainState × (ℕ → CpuState)) : Prop where
  bsp : IsInitial (u.1, u.2 0)
  point : ∀ cpu ∈ cfg.enabledCpus, (u.2 cpu).point = .loopTop
  loadAddr : ∀ cpu ∈ cfg.enabledCpus, (u.2 cpu).loadAddr = (u.2 0).loadAddr

/-- All CPUs have come to a window with pages to test that cannot be mapped, there are more
windows behind it, and some CPUs take part in the test while others do not. The last of these
needs a test that is run by the master alone, the one before a CPU without PAE or memory behind
the limit of the page tables. -/
structure PartAtWindow (cfg : MainConfig) (u : MainState × (ℕ → CpuState)) : Prop where
  point : ∀ cpu ∈ cfg.enabledCpus, (u.2 cpu).point = .windowMapped
  dummyRun : u.1.dummyRun = false
  mapped : u.1.vm.numMappedPages ≠ 0
  refused : mapFirst cfg.flags u.1.vm u.1.mappedWindow = none
  windowEnd : u.1.windowEnd < cfg.lastEnd
  active : ∃ cpu ∈ cfg.enabledCpus, (u.2 cpu).iAmActive = true
  inactive : ∃ cpu ∈ cfg.enabledCpus, (u.2 cpu).iAmActive = false

/-! ### What the pieces of the program decide, and by what -/

theorem enterTest_spec (cfg : MainConfig) (isMaster : Bool) (s : MainState) (l : CpuState) :
    (enterTest cfg isMaster s l).1 =
        { s with numActiveCpus := (enterTest cfg isMaster s l).1.numActiveCpus } ∧
      (enterTest cfg isMaster s l).2.point = .windowEntry ∧
      (enterTest cfg isMaster s l).2.loadAddr = l.loadAddr := by
  rw [enterTest]
  split_ifs <;> exact ⟨rfl, rfl, rfl⟩

theorem chooseWindow_spec (cfg : MainConfig) (s : MainState) (l : CpuState) :
    (chooseWindow cfg s l).1.bail = s.bail ∧ (chooseWindow cfg s l).2 =
      { l with point := if s.bail then .testDone else .windowChosen } := by
  rw [chooseWindow]
  split_ifs <;> exact ⟨rfl, rfl⟩

/-- Where a CPU waits when the window has been chosen. -/
def afterChoice (s : MainState) (loadAddr : LoadAddr) : WaitPoint :=
  if !s.dummyRun ∧ loadAddr ≠ targetLoadAddr s.windowNum then .runAt (targetLoadAddr s.windowNum)
  else .windowMapped

theorem setupWindow_spec (cfg : MainConfig) (s : MainState) (l : CpuState) :
    ((setupWindow cfg s l).1.dummyRun = s.dummyRun ∧
      (setupWindow cfg s l).1.windowNum = s.windowNum) ∧
      (setupWindow cfg s l).2 = { l with point := afterChoice s l.loadAddr } := by
  rw [setupWindow, afterChoice]
  split_ifs <;> exact ⟨⟨rfl, rfl⟩, rfl⟩

/-- Whether a window can be mapped does not depend on which one is. -/
theorem isNone_mapFirst (flags : CpuFlags) (vm : VmMapState) (mappedWindow mappedWindow' : ℕ) :
    (mapFirst flags vm mappedWindow).isNone = (mapFirst flags vm mappedWindow').isNone := by
  rw [← Option.not_isSome, ← Option.not_isSome,
    mapFirst_isSome_eq flags vm mappedWindow mappedWindow']

/-- Where a CPU waits after a window, by whether it takes part in the test. -/
def afterWindow (cfg : MainConfig) (s : MainState) (iAmActive : Bool) : WaitPoint :=
  if iAmActive ∧ s.vm.numMappedPages ≠ 0 ∧ s.dummyRun = false ∧
      (mapFirst cfg.flags s.vm s.mappedWindow).isNone then .testDone
  else loopPoint cfg s

/-- What the CPUs do not change of the shared state while they test a window. -/
structure SameWindow (s s' : MainState) : Prop where
  vm : s'.vm = s.vm
  dummyRun : s'.dummyRun = s.dummyRun
  windowEnd : s'.windowEnd = s.windowEnd

theorem SameWindow.refl (s : MainState) : SameWindow s s := ⟨rfl, rfl, rfl⟩

theorem SameWindow.trans {s'' : MainState} (h : SameWindow s s') (h' : SameWindow s' s'') :
    SameWindow s s'' :=
  ⟨h'.vm.trans h.vm, h'.dummyRun.trans h.dummyRun, h'.windowEnd.trans h.windowEnd⟩

theorem SameWindow.loopPoint_eq (h : SameWindow s s') (cfg : MainConfig) :
    loopPoint cfg s' = loopPoint cfg s := by
  rw [loopPoint, loopPoint, h.windowEnd]

theorem SameWindow.afterWindow_eq (h : SameWindow s s') (cfg : MainConfig) (iAmActive : Bool) :
    afterWindow cfg s' iAmActive = afterWindow cfg s iAmActive := by
  rw [afterWindow, afterWindow, h.vm, h.dummyRun, h.loopPoint_eq,
    isNone_mapFirst cfg.flags s.vm s'.mappedWindow s.mappedWindow]

theorem SameWindow.runTest (cfg : MainConfig) (menus : List (List MenuAction)) (s : MainState)
    (l : CpuState) (windowNum : ℕ) :
    SameWindow s { runTest cfg menus s l with windowNum := windowNum } := by
  constructor <;> simp [Memtest.runTest, MainState.record]

/-- What a CPU does with a window. -/
theorem testWindow_spec (cfg : MainConfig) (inp : Input) (s : MainState) (l : CpuState) :
    SameWindow s (testWindow cfg inp s l).1 ∧
      (testWindow cfg inp s l).2 = { l with point := afterWindow cfg s l.iAmActive } := by
  have hpoint : ∀ s', SameWindow s s' →
      ¬(l.iAmActive = true ∧ s.vm.numMappedPages ≠ 0 ∧ s.dummyRun = false ∧
        (mapFirst cfg.flags s.vm s.mappedWindow).isNone = true) →
      SameWindow s s' ∧ { l with point := loopPoint cfg s' } =
        { l with point := afterWindow cfg s l.iAmActive } := fun s' hsame hnot => by
    rw [afterWindow, if_neg hnot, hsame.loopPoint_eq]
    exact ⟨hsame, rfl⟩
  have hrefused : l.iAmActive = true → s.vm.numMappedPages ≠ 0 → s.dummyRun = false →
      mapFirst cfg.flags s.vm s.mappedWindow = none → SameWindow s s ∧
      { l with point := .testDone } = { l with point := afterWindow cfg s l.iAmActive } :=
    fun hactive hpages hdummy hmap => by
      rw [afterWindow, if_pos ⟨hactive, hpages, hdummy, by simp [hmap]⟩]
      exact ⟨.refl s, rfl⟩
  rw [testWindow]
  split_ifs with hactive hzero hmaster hdummy hmaster
  · exact hpoint s (.refl s) fun h => by simp [h.1] at hactive
  · exact hpoint _ ⟨rfl, rfl, rfl⟩ fun h => h.2.1 hzero
  · exact hpoint s (.refl s) fun h => h.2.1 hzero
  · exact hpoint _ (.runTest cfg [] s l _) fun h => by simp [h.2.2.1] at hdummy
  · exact hpoint s (.refl s) fun h => by simp [h.2.2.1] at hdummy
  · cases hmap : mapFirst cfg.flags s.vm s.mappedWindow with
    | none => exact hrefused (by simpa using hactive) hzero (by simpa using hdummy) hmap
    | some mappedWindow =>
      have hset : SameWindow s { s with mappedWindow := mappedWindow } := ⟨rfl, rfl, rfl⟩
      exact hpoint _ (hset.trans (.runTest cfg inp.menus _ l _)) fun h => by simp [hmap] at h
  · cases hmap : mapFirst cfg.flags s.vm s.mappedWindow with
    | none => exact hrefused (by simpa using hactive) hzero (by simpa using hdummy) hmap
    | some mappedWindow =>
      exact hpoint { s with mappedWindow := mappedWindow } ⟨rfl, rfl, rfl⟩ fun h => by
        simp [hmap] at h

/-! ### A round from a common point -/

/-- All CPUs wait at one point and run the program at one place. -/
structure Together (cfg : MainConfig) (ls : ℕ → CpuState) (point : WaitPoint)
    (loadAddr : LoadAddr) : Prop where
  point : ∀ cpu ∈ cfg.enabledCpus, (ls cpu).point = point
  loadAddr : ∀ cpu ∈ cfg.enabledCpus, (ls cpu).loadAddr = loadAddr

theorem MainConfig.nodup_order (r : CpuRound cfg) : r.order.Nodup :=
  r.perm.nodup_iff.mpr cfg.nodup_enabledCpus

/-- The rule for a round in which all CPUs do the same piece of the program. -/
theorem cpusStep_spec {r : CpuRound cfg} {ls ls' : ℕ → CpuState} {I : MainState → Prop}
    {Q : ℕ → CpuState → Prop} (h : cpusStep cfg r (s, ls) = some (s', ls')) (hI : I s)
    (hstep : ∀ cpu ∈ cfg.enabledCpus, ∀ u u' l', I u →
      cpuSegment cfg r.input cpu u (ls cpu) = some (u', l') → I u' ∧ Q cpu l') :
    I s' ∧ ∀ cpu ∈ cfg.enabledCpus, Q cpu (ls' cpu) := by
  have hspec := Lockstep.round_spec (MainConfig.nodup_order r)
    (fun cpu hcpu => hstep cpu (r.perm.mem_iff.mp hcpu)) hI h
  exact ⟨hspec.1, fun cpu hcpu => hspec.2 cpu (r.perm.mem_iff.mpr hcpu)⟩

section

variable {r : CpuRound cfg} {ls ls' : ℕ → CpuState} {point : WaitPoint} {loadAddr : LoadAddr}

/-- The CPUs come to one point if each of them does. -/
theorem Together.of_spec {I : MainState → Prop} {point' : WaitPoint} {loadAddr' : LoadAddr}
    (h : Together cfg ls point loadAddr) (hstep : cpusStep cfg r (s, ls) = some (s', ls'))
    (hI : I s)
    (hsegment : ∀ cpu u u' l l', l.point = point → l.loadAddr = loadAddr → I u →
      cpuSegment cfg r.input cpu u l = some (u', l') →
      I u' ∧ l'.point = point' ∧ l'.loadAddr = loadAddr') : Together cfg ls' point' loadAddr' := by
  have hspec :=
    cpusStep_spec (Q := fun _ l' => l'.point = point' ∧ l'.loadAddr = loadAddr') hstep hI
    fun cpu hcpu u u' l' hu hseg =>
      hsegment cpu u u' (ls cpu) l' (h.point cpu hcpu) (h.loadAddr cpu hcpu) hu hseg
  exact ⟨fun cpu hcpu => (hspec.2 cpu hcpu).1, fun cpu hcpu => (hspec.2 cpu hcpu).2⟩

/-- The CPUs in front of a trip. -/
theorem Together.loopTop (h : Together cfg ls .loopTop loadAddr)
    (hstep : cpusStep cfg r (s, ls) = some (s', ls')) : Together cfg ls' .testReady loadAddr :=
  h.of_spec (I := fun _ => True) hstep trivial fun cpu u u' l l' hl hload _ hseg => by
    simp only [cpuSegment, segment, hl, Option.some.injEq, Prod.mk.injEq] at hseg
    rw [← hseg.2]
    exact ⟨trivial, rfl, hload⟩

/-- The CPUs in front of a test. -/
theorem Together.testReady (h : Together cfg ls .testReady loadAddr)
    (hstep : cpusStep cfg r (s, ls) = some (s', ls')) :
    Together cfg ls' (if s.enabled s.testNum then .windowEntry else .testDone) loadAddr :=
  h.of_spec (I := fun u => u.enabled = s.enabled ∧ u.testNum = s.testNum) hstep ⟨rfl, rfl⟩
    fun cpu u u' l l' hl hload hu hseg => by
      obtain ⟨hsame, hpoint, hload'⟩ :=
        enterTest_spec cfg (cpu == u.masterCpu) (u.record (.indexTest u.testNum)) l
      simp only [cpuSegment, segment, hl, Option.some.injEq] at hseg
      rw [← hu.1, ← hu.2]
      split_ifs at hseg with henabled
      · rw [hseg] at hsame hpoint hload'
        exact ⟨⟨(congrArg MainState.enabled hsame :), (congrArg MainState.testNum hsame :)⟩,
          hpoint.trans (if_pos henabled).symm, hload'.trans hload⟩
      · obtain ⟨rfl, rfl⟩ := Prod.mk.inj hseg
        exact ⟨⟨rfl, rfl⟩, (if_neg henabled).symm, hload⟩

/-- The CPUs in front of a window. -/
theorem Together.windowEntry (h : Together cfg ls .windowEntry loadAddr)
    (hstep : cpusStep cfg r (s, ls) = some (s', ls')) :
    Together cfg ls' (if s.bail then .testDone else .windowChosen) loadAddr :=
  h.of_spec (I := fun u => u.bail = s.bail) hstep rfl fun cpu u u' l l' hl hload hu hseg => by
    obtain ⟨hbail, hl'⟩ := chooseWindow_spec cfg u l
    simp only [cpuSegment, segment, hl, Option.some.injEq] at hseg
    rw [hseg] at hbail hl'
    obtain rfl : l' = _ := hl'
    exact ⟨hbail.trans hu, by rw [hu], hload⟩

/-- The CPUs when the window has been chosen: either all of them move, or none. -/
theorem Together.windowChosen (h : Together cfg ls .windowChosen loadAddr)
    (hstep : cpusStep cfg r (s, ls) = some (s', ls')) :
    Together cfg ls' (afterChoice s loadAddr) loadAddr :=
  h.of_spec (I := fun u => u.dummyRun = s.dummyRun ∧ u.windowNum = s.windowNum) hstep ⟨rfl, rfl⟩
    fun cpu u u' l l' hl hload hu hseg => by
      obtain ⟨hsame, hl'⟩ := setupWindow_spec cfg u l
      simp only [cpuSegment, segment, hl, Option.some.injEq] at hseg
      rw [hseg] at hsame hl'
      obtain rfl : l' = _ := hl'
      exact ⟨⟨hsame.1.trans hu.1, hsame.2.trans hu.2⟩,
        by rw [hload, afterChoice, afterChoice, hu.1, hu.2], hload⟩

/-- The CPUs when the window has been set up: they part if they find it differently. -/
theorem Together.windowMapped (h : Together cfg ls .windowMapped loadAddr)
    (hstep : cpusStep cfg r (s, ls) = some (s', ls')) :
    (∀ cpu ∈ cfg.enabledCpus, (ls' cpu).point = afterWindow cfg s (ls cpu).iAmActive) ∧
      ∀ cpu ∈ cfg.enabledCpus, (ls' cpu).loadAddr = loadAddr := by
  have hspec := cpusStep_spec (I := SameWindow s)
    (Q := fun cpu l' => l'.point = afterWindow cfg s (ls cpu).iAmActive ∧
      l'.loadAddr = loadAddr) hstep (.refl s)
    fun cpu hcpu u u' l' hu hseg => by
      obtain ⟨hsame, hl'⟩ := testWindow_spec cfg r.input u (ls cpu)
      simp only [cpuSegment, segment, h.point cpu hcpu, Option.some.injEq] at hseg
      rw [hseg] at hsame hl'
      obtain rfl : l' = _ := hl'
      exact ⟨hu.trans hsame, hu.afterWindow_eq cfg _, h.loadAddr cpu hcpu⟩
  exact ⟨fun cpu hcpu => (hspec.2 cpu hcpu).1, fun cpu hcpu => (hspec.2 cpu hcpu).2⟩

/-- The CPUs when the program has been moved. -/
theorem Together.runAt {target : LoadAddr} (h : Together cfg ls (.runAt target) loadAddr)
    (hstep : cpusStep cfg r (s, ls) = some (s', ls')) : Together cfg ls' .loopTop target :=
  h.of_spec (I := fun _ => True) hstep trivial fun cpu u u' l l' hl _ _ hseg => by
    simp only [cpuSegment, segment, hl, Option.some.injEq, Prod.mk.injEq] at hseg
    rw [← hseg.2]
    exact ⟨trivial, rfl, rfl⟩

/-- The CPUs at the end of a trip: CPU 0 may have finished. -/
theorem Together.testDone (h : Together cfg ls .testDone loadAddr)
    (hstep : cpusStep cfg r (s, ls) = some (s', ls')) :
    (∀ cpu ∈ cfg.enabledCpus, (ls' cpu).point = .loopTop ∨
      cpu = 0 ∧ (ls' cpu).point = .finished) ∧
      ∀ cpu ∈ cfg.enabledCpus, (ls' cpu).loadAddr = loadAddr := by
  have hspec := cpusStep_spec (I := fun _ => True)
    (Q := fun cpu l' => (l'.point = .loopTop ∨ cpu = 0 ∧ l'.point = .finished) ∧
      l'.loadAddr = loadAddr) hstep trivial
    fun cpu hcpu u u' l' _ hseg => by
      simp only [cpuSegment, segment, h.point cpu hcpu, Option.some.injEq] at hseg
      split_ifs at hseg with hzero
      · obtain ⟨rfl, rfl⟩ := Prod.mk.inj hseg
        exact ⟨trivial, (epilogue_point cfg r.input u).imp_right fun h => ⟨by simpa using hzero, h⟩,
          h.loadAddr cpu hcpu⟩
      · obtain ⟨rfl, rfl⟩ := Prod.mk.inj hseg
        exact ⟨trivial, .inl rfl, h.loadAddr cpu hcpu⟩
  exact ⟨fun cpu hcpu => (hspec.2 cpu hcpu).1, fun cpu hcpu => (hspec.2 cpu hcpu).2⟩

/-- After the last pass there is no round any more. -/
theorem cpusStep_ne_some_of_finished (h : (ls 0).point = .finished)
    {u : MainState × (ℕ → CpuState)} :
    cpusStep cfg r (s, ls) ≠ some u := by
  intro hstep
  have hspec := cpusStep_spec (I := fun _ => True) (Q := fun cpu _ => cpu ≠ 0) hstep trivial
    fun cpu _ u u' l' _ hseg => ⟨trivial, fun hzero => by
      simp [cpuSegment, segment, hzero, h] at hseg⟩
  exact hspec.2 0 cfg.zero_mem_enabledCpus rfl

/-- A window that is not refused, or is the last one, or finds all CPUs in the same case. -/
theorem Together.windowMapped_together (h : Together cfg ls .windowMapped loadAddr)
    (hpart : ¬PartAtWindow cfg (s, ls)) (hstep : cpusStep cfg r (s, ls) = some (s', ls')) :
    ∃ point', Together cfg ls' point' loadAddr := by
  obtain ⟨hpoint, hload⟩ := h.windowMapped hstep
  by_cases hrefused : s.vm.numMappedPages ≠ 0 ∧ s.dummyRun = false ∧
      (mapFirst cfg.flags s.vm s.mappedWindow).isNone
  · by_cases hactive : ∃ cpu ∈ cfg.enabledCpus, (ls cpu).iAmActive = true
    · refine ⟨.testDone, fun cpu hcpu => (hpoint cpu hcpu).trans ?_, hload⟩
      rw [afterWindow, loopPoint]
      cases hcase : (ls cpu).iAmActive with
      | true => exact if_pos ⟨rfl, hrefused⟩
      | false =>
        rw [if_neg (fun h => Bool.false_ne_true h.1), if_neg]
        exact fun hlast => hpart ⟨h.point, hrefused.2.1, hrefused.1,
          Option.isNone_iff_eq_none.mp hrefused.2.2, hlast, hactive, cpu, hcpu, hcase⟩
    · refine ⟨loopPoint cfg s, fun cpu hcpu => (hpoint cpu hcpu).trans ?_, hload⟩
      rw [afterWindow, if_neg fun h => hactive ⟨cpu, hcpu, h.1⟩]
  · refine ⟨loopPoint cfg s, fun cpu hcpu => (hpoint cpu hcpu).trans ?_, hload⟩
    rw [afterWindow, if_neg fun h => hrefused h.2]

/-- The CPUs stay together in a round in which they do not part. -/
theorem Together.cpusStep (h : Together cfg ls point loadAddr)
    (hpart : ¬PartAtWindow cfg (s, ls)) (hstep : cpusStep cfg r (s, ls) = some (s', ls')) :
    (∃ point' loadAddr', Together cfg ls' point' loadAddr') ∨
      WaitTogether cfg ls' ∧ (ls' 0).point = .finished := by
  cases point with
  | loopTop => exact .inl ⟨_, _, h.loopTop hstep⟩
  | testReady => exact .inl ⟨_, _, h.testReady hstep⟩
  | windowEntry => exact .inl ⟨_, _, h.windowEntry hstep⟩
  | windowChosen => exact .inl ⟨_, _, h.windowChosen hstep⟩
  | runAt target => exact .inl ⟨_, _, h.runAt hstep⟩
  | windowMapped =>
    obtain ⟨point', htogether⟩ := h.windowMapped_together hpart hstep
    exact .inl ⟨point', _, htogether⟩
  | testDone =>
    obtain ⟨hpoint, hload⟩ := h.testDone hstep
    by_cases hfinished : (ls' 0).point = .finished
    · exact .inr ⟨⟨.loopTop, fun cpu hcpu => (hpoint cpu hcpu).imp_right fun h => ⟨h.1, h.2, rfl⟩⟩,
        hfinished⟩
    · exact .inl ⟨.loopTop, loadAddr, fun cpu hcpu => (hpoint cpu hcpu).resolve_right
        fun h => hfinished (h.1 ▸ h.2), hload⟩
  | finished =>
    exact absurd hstep (cpusStep_ne_some_of_finished (h.point 0 cfg.zero_mem_enabledCpus))

/-- In a round in which they part, some CPUs come to the wait in `main` and others to the next
window. -/
theorem PartAtWindow.not_waitTogether (h : PartAtWindow cfg (s, ls))
    (htogether : Together cfg ls point loadAddr)
    (hstep : Memtest.cpusStep cfg r (s, ls) = some (s', ls')) : ¬WaitTogether cfg ls' := by
  obtain ⟨active, hcpu, hactive⟩ := h.active
  obtain ⟨inactive, hcpu', hinactive⟩ := h.inactive
  replace hactive : (ls active).iAmActive = true := hactive
  replace hinactive : (ls inactive).iAmActive = false := hinactive
  obtain rfl : point = .windowMapped := (htogether.point _ hcpu).symm.trans (h.point _ hcpu)
  obtain ⟨hpoint, -⟩ := htogether.windowMapped hstep
  have hdone : (ls' active).point = .testDone := by
    rw [hpoint active hcpu, afterWindow, hactive]
    exact if_pos ⟨rfl, h.mapped, h.dummyRun, Option.isNone_iff_eq_none.mpr h.refused⟩
  have hentry : (ls' inactive).point = .windowEntry := by
    rw [hpoint inactive hcpu', afterWindow, hinactive, if_neg (fun h => Bool.false_ne_true h.1)]
    exact if_pos h.windowEnd
  rintro ⟨point', htogether'⟩
  obtain h | ⟨-, h, -⟩ := htogether' active hcpu
  · obtain h' | ⟨-, h', -⟩ := htogether' inactive hcpu'
    · exact absurd (hdone.symm.trans (h.trans (h'.symm.trans hentry))) nofun
    · exact absurd (hentry.symm.trans h') nofun
  · exact absurd (hdone.symm.trans h) nofun

end

/-- **The CPUs keep step.** The CPUs wait at one point before every round of a run, and behind the
last one, exactly as long as they do not part at a window.

The order of the CPUs is chosen anew in each round, and so is what comes from outside, the keys
and the answers of the menus. The condition is one on the state before a round; it is exact, since
CPUs that have parted wait at different points of `test_all_windows` from then on. -/
theorem waitTogether_iff {rounds : List (CpuRound cfg)} {u₀ u : MainState × (ℕ → CpuState)}
    (h₀ : CpusInitial cfg u₀) (hrun : cpusRun cfg rounds u₀ = some u) :
    (∀ before after t, rounds = before ++ after → cpusRun cfg before u₀ = some t →
      WaitTogether cfg t.2) ↔
      Executions.Always (cpusStep cfg) (fun _ t => ¬PartAtWindow cfg t) rounds u₀ := by
  refine Executions.forall_prefix_iff (P := fun _ t => PartAtWindow cfg t)
    (G := fun t => WaitTogether cfg t.2)
    (I := fun t => (∃ point loadAddr, Together cfg t.2 point loadAddr) ∨
      WaitTogether cfg t.2 ∧ (t.2 0).point = .finished)
    (fun t hI => ?_) (fun r t t' hI hpart hstep => ?_) (fun r t t' hI hpart hstep => ?_)
    (.inl ⟨.loopTop, _, h₀.point, h₀.loadAddr⟩) hrun
  · obtain ⟨point, _, htogether⟩ | ⟨hwait, -⟩ := hI
    · exact ⟨point, fun cpu hcpu => .inl (htogether.point cpu hcpu)⟩
    · exact hwait
  · obtain ⟨_, _, htogether⟩ | ⟨-, hfinished⟩ := hI
    · exact htogether.cpusStep hpart hstep
    · exact absurd hstep (cpusStep_ne_some_of_finished hfinished)
  · obtain ⟨_, _, htogether⟩ | ⟨-, hfinished⟩ := hI
    · exact hpart.not_waitTogether htogether hstep
    · exact absurd hstep (cpusStep_ne_some_of_finished hfinished)

/-! ### Two CPUs without PAE -/

instance decidablePartAtWindow (u : MainState × (ℕ → CpuState)) :
    Decidable (PartAtWindow cfg u) :=
  decidable_of_iff
    ((∀ cpu ∈ cfg.enabledCpus, (u.2 cpu).point = .windowMapped) ∧ u.1.dummyRun = false ∧
      u.1.vm.numMappedPages ≠ 0 ∧ (mapFirst cfg.flags u.1.vm u.1.mappedWindow).isNone ∧
      u.1.windowEnd < cfg.lastEnd ∧ (∃ cpu ∈ cfg.enabledCpus, (u.2 cpu).iAmActive = true) ∧
      ∃ cpu ∈ cfg.enabledCpus, (u.2 cpu).iAmActive = false)
    ⟨fun ⟨h₁, h₂, h₃, h₄, h₅, h₆, h₇⟩ =>
        ⟨h₁, h₂, h₃, Option.isNone_iff_eq_none.mp h₄, h₅, h₆, h₇⟩,
      fun h => ⟨h.point, h.dummyRun, h.mapped, Option.isNone_iff_eq_none.mpr h.refused,
        h.windowEnd, h.active, h.inactive⟩⟩

/-- Two CPUs without PAE, and some memory above four gigabytes. -/
def noPaeConfig : MainConfig :=
  { twoCpuConfig with
    flags := ⟨false, false⟩, pmMap := [⟨0x100, 0x1000⟩, ⟨0x100000, 0x180000⟩] }

/-- The user does nothing, and the CPUs run one after the other. -/
def quietRound (cfg : MainConfig) : CpuRound cfg := ⟨quietInput, cfg.enabledCpus, .refl _⟩

/-- The CPUs in front of the main loop, with test 4 enabled. -/
def cpusInit : MainState × (ℕ → CpuState) :=
  ({ (mainInit (fun n => n = 4) .one).1 with limits := ⟨0, 0x180000⟩ },
    fun _ => (mainInit (fun n => n = 4) .one).2)

theorem cpusInitial_cpusInit (cfg : MainConfig) : CpusInitial cfg cpusInit :=
  ⟨⟨rfl, rfl, rfl, rfl, rfl, rfl, rfl, rfl⟩, fun _ _ => rfl, fun _ _ => rfl⟩

set_option maxRecDepth 10000 in
theorem waitTogether_iff_noPae : ∃ u,
    cpusRun noPaeConfig (List.replicate 60 (quietRound noPaeConfig)) cpusInit = some u ∧
    ∀ before after t, List.replicate 60 (quietRound noPaeConfig) = before ++ after →
      cpusRun noPaeConfig before cpusInit = some t → WaitTogether noPaeConfig t.2 := by
  have hsome : (cpusRun noPaeConfig (List.replicate 60 (quietRound noPaeConfig))
      cpusInit).isSome = true := by decide
  obtain ⟨u, hu⟩ := Option.isSome_iff_exists.mp hsome
  exact ⟨u, hu, (waitTogether_iff (cpusInitial_cpusInit _) hu).mpr (by decide)⟩

set_option maxRecDepth 10000 in
/-- The first window above four gigabytes parts the CPUs in the first pass that counts. -/
theorem not_waitTogether_noPae :
    ¬∀ (cfg : MainConfig) (rounds : List (CpuRound cfg)) (u₀ u : MainState × (ℕ → CpuState)),
      CpusInitial cfg u₀ → cpusRun cfg rounds u₀ = some u →
      ∀ before after t, rounds = before ++ after → cpusRun cfg before u₀ = some t →
        WaitTogether cfg t.2 := by
  intro h
  have hpart : ((cpusRun noPaeConfig (List.replicate 156 (quietRound noPaeConfig))
      cpusInit).map fun u => decide ((u.2 0).point = .testDone ∧ (u.2 1).point = .windowEntry)) =
      some true := by decide
  obtain ⟨u, hu, hpoints⟩ := Option.map_eq_some_iff.mp hpart
  obtain ⟨hdone, hentry⟩ := of_decide_eq_true hpoints
  obtain ⟨point, hpoint⟩ := h noPaeConfig _ cpusInit u (cpusInitial_cpusInit _) hu _ [] u
    (List.append_nil _).symm hu
  obtain h₀ | ⟨-, h₀, -⟩ := hpoint 0 (by decide)
  · obtain h₁ | ⟨h₁, -, -⟩ := hpoint 1 (by decide)
    · exact absurd (hdone.symm.trans (h₀.trans (h₁.symm.trans hentry))) nofun
    · exact absurd h₁ Nat.one_ne_zero
  · exact absurd (hdone.symm.trans h₀) nofun

end Memtest
