import Memtest.Main.LoopSpec

/-!
# The test schedule

What the main loop does with `test_sequence` is read off its log. `passView` is the pass that is
going on: its number, the tests that are due in it, and those that have started. A pass is complete
if all that are due have started, each once and in the order of the sequence, when it ends.

The read at the end of the last test of a pass is behind the array. A run stays inside the array
exactly as long as no step is such an end (`schedule_iff`).
-/

namespace Memtest

variable {cfg : MainConfig} {inp : Input} {s s' : MainState} {l l' : CpuState}

/-! ### What a log says -/

/-- A pass that is going on. -/
structure PassView where
  passNum : ℕ
  due : List ℕ
  started : List ℤ
  deriving DecidableEq

/-- The pass after an event. -/
def passStep (view : Option PassView) : MainEvent → Option PassView
  | .startPass passNum due => some ⟨passNum, due, []⟩
  | .startTest testNum => view.map fun v => { v with started := v.started ++ [testNum] }
  | .endPass _ => none
  | _ => view

/-- The pass that is going on after some events. There is none before the first start of a pass
and between the end of one and the start of the next. -/
def passView (log : List MainEvent) : Option PassView := log.foldl passStep none

/-- An access to `test_sequence`, `test_list` or `ticks_per_test` is not out of range. -/
def MainEvent.InRange : MainEvent → Prop
  | .readSequence index => index < numTestPatterns
  | .indexTest testNum => 0 ≤ testNum ∧ testNum < (numTestPatterns : ℤ)
  | _ => True

/-- No access is out of range: each index into `test_sequence` and each test number with which
`test_list` or `ticks_per_test` has been read. -/
def ReadsInRange (log : List MainEvent) : Prop := ∀ e ∈ log, e.InRange

/-- When a pass ends, the tests that are due have been started, each once and in order, and the
number of passes has grown by one. Which tests are due is fixed when the pass starts; a change of
the selection shows in the next one. -/
def PassesComplete (log : List MainEvent) : Prop :=
  ∀ before passNum after, log = before ++ .endPass passNum :: after →
    ∃ view, passView before = some view ∧ view.started = view.due.map Nat.cast ∧
      passNum = view.passNum + 1

/-- CPU 0 is about to leave the last test of a pass: the user has not asked for a restart, and the
test, if it is enabled, has been run in its last stage by its last master. The main loop then
counts the index up and reads `test_sequence` once more, before it compares the index with the
length. -/
def EndsPass (cfg : MainConfig) (inp : Input) (t : MainState × CpuState) : Prop :=
  let s := checkInput cfg t.1 inp.menus
  t.2.point = .testDone ∧ s.restart = false ∧ s.testNumIndex + 1 = numTestPatterns ∧
    (s.enabled s.testNum = true →
      (cfg.testPattern s.testNum).stages ≤ s.testStage + 1 ∧ ∃ next, cfg.LeavesTest s next)

theorem passView_append (log events : List MainEvent) :
    passView (log ++ events) = events.foldl passStep (passView log) :=
  List.foldl_append

/-- Events that leave the view of the pass as it is. -/
def MainEvent.IsNeutral : MainEvent → Prop
  | .startPass .. | .startTest _ | .endPass _ => False
  | _ => True

theorem passView_append_neutral {log events : List MainEvent}
    (h : ∀ e ∈ events, e.IsNeutral) : passView (log ++ events) = passView log := by
  rw [passView_append]
  induction events with
  | nil => rfl
  | cons e events ih =>
    have hstep : ∀ view, passStep view e = view := by
      have he := h e List.mem_cons_self
      cases e with
      | startPass | startTest | endPass => exact he.elim
      | readSequence | indexTest | runTest | endStage | restart => exact fun _ => rfl
    rw [List.foldl_cons, hstep]
    exact ih fun e' he' => h e' (.tail _ he')

theorem PassesComplete.append {log events : List MainEvent} (h : PassesComplete log)
    (hevents : ∀ n, .endPass n ∉ events) : PassesComplete (log ++ events) := by
  intro before n after heq
  obtain ⟨middle, hbefore, heq⟩ | ⟨middle, hlog, heq⟩ := List.append_eq_append_iff.mp heq
  · exact absurd (heq ▸ List.mem_append_right _ List.mem_cons_self) (hevents n)
  · cases middle with
    | nil =>
      rw [List.nil_append] at heq
      exact absurd (heq ▸ List.mem_cons_self) (hevents n)
    | cons e middle =>
      obtain ⟨rfl, -⟩ := List.cons.inj heq
      exact h before n middle hlog

theorem PassesComplete.endPass {log : List MainEvent} (h : PassesComplete log) {n : ℕ}
    {view : PassView} (hview : passView log = some view)
    (hstarted : view.started = view.due.map Nat.cast) (hn : n = view.passNum + 1) :
    PassesComplete (log ++ [.endPass n]) := by
  intro before n' after heq
  obtain ⟨middle, hbefore, heq⟩ | ⟨middle, hlog, heq⟩ := List.append_eq_append_iff.mp heq
  · cases middle with
    | nil =>
      rw [List.append_nil] at hbefore
      obtain ⟨heq, -⟩ := List.cons.inj heq
      exact ⟨view, hbefore ▸ hview, hstarted, (MainEvent.endPass.inj heq).symm.trans hn⟩
    | cons e middle => simp at heq
  · cases middle with
    | nil =>
      rw [List.append_nil] at hlog
      obtain ⟨heq, -⟩ := List.cons.inj heq
      exact ⟨view, hlog ▸ hview, hstarted, (MainEvent.endPass.inj heq).trans hn⟩
    | cons e middle =>
      obtain ⟨rfl, -⟩ := List.cons.inj heq
      exact h before n' middle hlog

/-! ### Runs that do not end a pass -/

/-- The index and the test number are in range, and so has been everything read so far; no pass
has ended. -/
structure InRange (s : MainState) : Prop where
  testNumIndex : s.testNumIndex < numTestPatterns
  testNum : 0 ≤ s.testNum ∧ s.testNum < (numTestPatterns : ℤ)
  reads : ReadsInRange s.log
  noEndPass : ∀ n, .endPass n ∉ s.log

theorem TestSequence.read_inRange (sequence : TestSequence) (beyond : ℤ) {index : ℕ}
    (h : index < numTestPatterns) :
    0 ≤ sequence.read beyond index ∧ sequence.read beyond index < (numTestPatterns : ℤ) := by
  obtain ⟨t, -, ht, hread⟩ := sequence.read_of_lt beyond h
  rw [hread]
  exact ⟨Int.natCast_nonneg t, Int.ofNat_lt.mpr ht⟩

/-- Inside the array it does not matter what lies behind it. -/
theorem TestSequence.read_eq (sequence : TestSequence) (beyond beyond' : ℤ) {index : ℕ}
    (h : index < numTestPatterns) :
    sequence.read beyond index = sequence.read beyond' index := by
  obtain ⟨t, hget, -, hread⟩ := sequence.read_of_lt beyond h
  obtain ⟨t', hget', -, hread'⟩ := sequence.read_of_lt beyond' h
  rw [hread, hread', Option.some.inj (hget.symm.trans hget')]

/-- The events of a prologue in which a test begins. -/
def startEvents (s : MainState) (testNum : ℤ) : List MainEvent :=
  .indexTest testNum :: if s.enabled testNum then [.startTest testNum] else []

theorem mem_startEvents {s : MainState} {testNum : ℤ} {e : MainEvent}
    (h : e ∈ startEvents s testNum) : e = .indexTest testNum ∨ e = .startTest testNum := by
  refine (List.mem_cons.mp h).imp_right fun h => ?_
  split_ifs at h
  · exact List.mem_singleton.mp h
  · exact absurd h List.not_mem_nil

/-- The state after more events that are in range. -/
theorem InRange.of_log (h : InRange s) {events : List MainEvent}
    (hindex : s'.testNumIndex < numTestPatterns)
    (htestNum : 0 ≤ s'.testNum ∧ s'.testNum < (numTestPatterns : ℤ))
    (hlog : s'.log = s.log ++ events)
    (hevents : ∀ e ∈ events, e.InRange ∧ ∀ n, e ≠ .endPass n) : InRange s' where
  testNumIndex := hindex
  testNum := htestNum
  reads e he := by
    rw [hlog] at he
    exact (List.mem_append.mp he).elim (h.reads e) fun he => (hevents e he).1
  noEndPass n hmem := by
    rw [hlog] at hmem
    exact (List.mem_append.mp hmem).elim (h.noEndPass n) fun hmem => (hevents _ hmem).2 n rfl

theorem InRange.prologue (h : InRange s) (beyond : ℤ) : InRange (prologue beyond s) := by
  have hstart : ∀ t : ℤ, 0 ≤ t ∧ t < (numTestPatterns : ℤ) →
      ∀ e ∈ startEvents s t, e.InRange ∧ ∀ n, e ≠ .endPass n := by
    intro t ht e he
    obtain rfl | rfl := mem_startEvents he
    · exact ⟨ht, nofun⟩
    · exact ⟨trivial, nofun⟩
  by_cases hpass : s.startRun = true ∨ s.startPass = true
  · have hread := s.testSequence.read_inRange beyond (Nat.zero_lt_succ 11)
    rw [prologue_of_startPass beyond hpass]
    refine h.of_log (Nat.zero_lt_succ 11) hread rfl fun e he => ?_
    obtain rfl | he := List.mem_cons.mp he
    · exact ⟨trivial, nofun⟩
    obtain rfl | he := List.mem_cons.mp he
    · exact ⟨Nat.zero_lt_succ 11, nofun⟩
    · exact hstart _ hread e he
  · obtain ⟨hrun, hpass⟩ := not_or.mp hpass
    rw [Bool.not_eq_true] at hrun hpass
    cases htest : s.startTest with
    | true =>
      rw [prologue_of_startTest beyond hrun hpass htest]
      exact h.of_log h.testNumIndex h.testNum rfl (hstart _ h.testNum)
    | false =>
      rw [prologue_of_resume beyond hrun hpass htest, beginStage]
      split_ifs <;> exact ⟨h.testNumIndex, h.testNum, h.reads, h.noEndPass⟩

theorem InRange.testStep (h : InRange s) (hstep : TestStep inp s s') : InRange s' := by
  obtain ⟨events, hlog, hevents⟩ := hstep.log
  refine h.of_log (hstep.testNumIndex ▸ h.testNumIndex) (hstep.testNum ▸ h.testNum) hlog
    fun e he => ?_
  obtain rfl | ⟨iterations, windowNum, rfl⟩ := hevents e he
  · exact ⟨h.testNum, nofun⟩
  · exact ⟨trivial, nofun⟩

theorem InRange.fetchTest (h : InRange s) (beyond : ℤ) : InRange (s.fetchTest beyond) :=
  h.of_log h.testNumIndex (s.testSequence.read_inRange beyond h.testNumIndex) rfl fun e he => by
    rw [List.mem_singleton.mp he]
    exact ⟨h.testNumIndex, nofun⟩

theorem InRange.checkInput (h : InRange s) (cfg : MainConfig) (menus : List (List MenuAction)) :
    InRange (checkInput cfg s menus) :=
  ⟨by simpa using h.testNumIndex, by simpa using h.testNum, by simpa using h.reads,
    by simpa using h.noEndPass⟩

/-- Leaving a test that is not the last one. -/
theorem InRange.nextTest (h : InRange s) (hindex : s.testNumIndex + 1 ≠ numTestPatterns) :
    InRange (nextTest inp s).1 := by
  have hlt : s.testNumIndex + 1 < numTestPatterns :=
    lt_of_le_of_ne h.testNumIndex hindex
  have hread := s.testSequence.read_inRange inp.beyond hlt
  obtain ⟨-, heq⟩ | ⟨hge, -⟩ := nextTest_cases inp s rfl
  · rw [heq]
    exact h.of_log hlt hread rfl fun e he => by
      rw [List.mem_singleton.mp he]
      exact ⟨hlt, nofun⟩
  · exact absurd hread.2 (not_lt.mpr hge)

theorem InRange.afterStage (h : InRange s) (testStage masterCpu : ℕ) :
    InRange (s.afterStage testStage masterCpu) :=
  h.of_log h.testNumIndex h.testNum rfl fun e he => by
    obtain rfl | rfl := List.mem_pair.mp he
    · exact ⟨h.testNum, nofun⟩
    · exact ⟨trivial, nofun⟩

/-- The end of a trip that does not end a pass. -/
theorem InRange.epilogue (h : InRange s) (hl : l.point = .testDone)
    (hends : ¬EndsPass cfg inp (s, l)) : InRange (epilogue cfg inp s).1 := by
  have h₁ := h.checkInput cfg inp.menus
  obtain ⟨-, heq⟩ | ⟨hrestart, henabled, heq⟩ | ⟨hrestart, henabled, heq⟩ :=
    epilogue_cases cfg inp s rfl
  · rw [heq]
    exact h₁.of_log h₁.testNumIndex h₁.testNum rfl fun e he => by
      rw [List.mem_singleton.mp he]
      exact ⟨trivial, nofun⟩
  · have hrecord : InRange ((Memtest.checkInput cfg s inp.menus).record (.indexTest
        (Memtest.checkInput cfg s inp.menus).testNum)) :=
      h₁.of_log h₁.testNumIndex h₁.testNum rfl fun e he => by
        rw [List.mem_singleton.mp he]
        exact ⟨h₁.testNum, nofun⟩
    rw [heq]
    exact hrecord.nextTest fun hindex => hends ⟨hl, hrestart, hindex, fun hen => by
      rw [henabled] at hen
      exact absurd hen Bool.false_ne_true⟩
  · obtain ⟨-, heq'⟩ | ⟨-, -, -, heq'⟩ | ⟨next, hstages, hleaves, heq'⟩ :=
      endStage_cases cfg inp (Memtest.checkInput cfg s inp.menus)
    · rw [heq, heq']
      have hafter := h₁.afterStage ((Memtest.checkInput cfg s inp.menus).testStage + 1)
        (Memtest.checkInput cfg s inp.menus).masterCpu
      exact ⟨hafter.1, hafter.2, hafter.3, hafter.4⟩
    · rw [heq, heq']
      have hafter := h₁.afterStage 0
        (selectNextMaster cfg (Memtest.checkInput cfg s inp.menus)).masterCpu
      exact ⟨hafter.1, hafter.2, hafter.3, hafter.4⟩
    · rw [heq, heq']
      exact (h₁.afterStage 0 next).nextTest fun hindex =>
        hends ⟨hl, hrestart, hindex, fun _ => ⟨hstages, next, hleaves⟩⟩

/-- A step that does not end a pass. -/
theorem InRange.mainStep (h : InRange s) (hends : ¬EndsPass cfg inp (s, l))
    (hstep : mainStep cfg inp (s, l) = some (s', l')) : InRange s' := by
  obtain ⟨-, rfl, -⟩ | ⟨-, hstep, -⟩ | ⟨-, rfl, -⟩ | ⟨hl, heq⟩ := mainStep_cases hstep
  · exact h.prologue inp.beyond
  · exact h.testStep hstep
  · exact h.fetchTest inp.beyond
  · have hafter := h.epilogue hl hends
    rwa [heq] at hafter

/-! ### Runs in which the word behind the array ends a pass -/

/-- The tests of a pass that are due up to an index of the sequence. -/
def MainState.dueUpTo (s : MainState) (index : ℕ) : List ℤ :=
  ((s.testSequence.order.take index).filter fun t : ℕ => s.enabled t).map Nat.cast

theorem MainState.dueUpTo_all (s : MainState) :
    s.dueUpTo numTestPatterns = s.due.map Nat.cast := by
  rw [dueUpTo, ← s.testSequence.length_order, List.take_length]
  rfl

/-- The next test is due if it is enabled. -/
theorem MainState.dueUpTo_succ {s : MainState} {index : ℕ} (h : index < numTestPatterns)
    (beyond : ℤ) : s.dueUpTo (index + 1) = s.dueUpTo index ++
      if s.enabled (s.testSequence.read beyond index) then
        [s.testSequence.read beyond index] else [] := by
  obtain ⟨t, hget, -, hread⟩ := s.testSequence.read_of_lt beyond h
  rw [dueUpTo, dueUpTo, List.take_add_one, hget, Option.toList_some, List.filter_append,
    List.map_append, hread]
  cases henabled : s.enabled t <;> simp [henabled]

/-- The pass that is going on is the one the globals say, and the tests up to an index have
started. -/
structure InPass (s : MainState) (index : ℕ) : Prop where
  view : passView s.log = some ⟨s.passNum, s.due, s.dueUpTo index⟩
  testNum : ∀ beyond, s.testNum = s.testSequence.read beyond s.testNumIndex

/-- The tests that have started when CPU 0 comes to a test: up to it, or up to the one before it
if it is still to start. -/
def MainState.numStarted (s : MainState) : ℕ :=
  if s.startTest then s.testNumIndex else s.testNumIndex + 1

/-- The state of a run at a wait. Behind the end of a pass the index is out of range, and the next
pass is asked for. -/
structure Scheduled (s : MainState) (point : WaitPoint) : Prop where
  inRange : (s.testNumIndex < numTestPatterns ∧ 0 ≤ s.testNum ∧
      s.testNum < (numTestPatterns : ℤ)) ∨
    (point = .loopTop ∨ point = .finished) ∧ (s.startRun = true ∨ s.startPass = true)
  reads : ∀ t, .indexTest t ∈ s.log → 0 ≤ t ∧ t < (numTestPatterns : ℤ)
  complete : PassesComplete s.log
  startTest : point ≠ .loopTop → point ≠ .finished → s.startTest = false
  inPass : s.restart = true ∨ InPass s s.numStarted ∨
    (point = .loopTop ∨ point = .finished) ∧ (s.startRun = true ∨ s.startPass = true)

/-- The view of the pass after a prologue in which a test begins. -/
theorem startEvents_view {log : List MainEvent} (s : MainState) (testNum : ℤ) {v : PassView}
    (h : passView log = some v) : passView (log ++ startEvents s testNum) =
      some { v with started := v.started ++ if s.enabled testNum then [testNum] else [] } := by
  rw [passView_append, h, startEvents]
  cases s.enabled testNum <;> simp [passStep]

theorem PassesComplete.startEvents {log : List MainEvent} (h : PassesComplete log)
    (s : MainState) (testNum : ℤ) : PassesComplete (log ++ startEvents s testNum) :=
  h.append fun _ hmem => (mem_startEvents hmem).elim nofun nofun

/-- A pass begins. -/
theorem Scheduled.prologue_of_startPass (h : Scheduled s .loopTop) (beyond : ℤ)
    (hpass : s.startRun = true ∨ s.startPass = true) :
    Scheduled (prologue beyond s) .testReady := by
  have hread := s.testSequence.read_inRange beyond (Nat.zero_lt_succ 11)
  rw [Memtest.prologue_of_startPass beyond hpass]
  generalize hp : (if s.startRun = true then 0 else s.passNum) = passNum
  have hlog : s.log ++ .startPass passNum s.due :: .readSequence 0 ::
      startEvents s (s.testSequence.read beyond 0) =
      s.log ++ [.startPass passNum s.due, .readSequence 0] ++
        startEvents s (s.testSequence.read beyond 0) := by simp
  refine ⟨.inl ⟨Nat.zero_lt_succ 11, hread⟩, fun t ht => ?_, ?_, fun _ _ => rfl,
    .inr (.inl ⟨?_, fun beyond' => ?_⟩)⟩
  · obtain ht | ht := List.mem_append.mp (hlog ▸ ht)
    · exact h.reads t (by simpa using ht)
    obtain heq | heq := mem_startEvents ht
    · rw [MainEvent.indexTest.inj heq]
      exact hread
    · exact absurd heq nofun
  · exact hlog ▸ (h.complete.append (by simp)).startEvents s _
  · have hview : passView (s.log ++ [.startPass passNum s.due, .readSequence 0]) =
        some ⟨passNum, s.due, []⟩ := passView_append _ _
    have hstarted := startEvents_view s (s.testSequence.read beyond 0) hview
    refine (congrArg passView hlog).trans (hstarted.trans ?_)
    have hone := s.dueUpTo_succ (Nat.zero_lt_succ 11) beyond
    exact congrArg (fun started => some (PassView.mk passNum s.due started)) hone.symm
  · exact s.testSequence.read_eq beyond beyond' (Nat.zero_lt_succ 11)

/-- A test of the pass begins, or one goes on. -/
theorem Scheduled.prologue_of_not (h : Scheduled s .loopTop) (beyond : ℤ)
    (hpass : ¬(s.startRun = true ∨ s.startPass = true)) :
    Scheduled (prologue beyond s) .testReady := by
  have hrange := h.inRange.resolve_right fun h => hpass h.2
  have hinPass : s.restart = true ∨ InPass s s.numStarted :=
    h.inPass.imp_right fun h => h.resolve_right fun h => hpass h.2
  obtain ⟨hrun, hpass⟩ := not_or.mp hpass
  rw [Bool.not_eq_true] at hrun hpass
  cases htest : s.startTest with
  | true =>
    rw [prologue_of_startTest beyond hrun hpass htest]
    refine ⟨.inl hrange, fun t ht => ?_, h.complete.startEvents s s.testNum, fun _ _ => rfl,
      hinPass.imp_right fun hin => .inl ⟨?_, hin.testNum⟩⟩
    · obtain ht | ht := List.mem_append.mp ht
      · exact h.reads t ht
      obtain heq | heq := mem_startEvents ht
      · rw [MainEvent.indexTest.inj heq]
        exact hrange.2
      · exact absurd heq nofun
    · rw [MainState.numStarted, if_pos htest] at hin
      refine (startEvents_view s s.testNum hin.view).trans ?_
      have hsucc := s.dueUpTo_succ hrange.1 0
      rw [← hin.testNum 0] at hsucc
      exact congrArg (fun started => some (PassView.mk s.passNum s.due started)) hsucc.symm
  | false =>
    rw [prologue_of_resume beyond hrun hpass htest, beginStage]
    have hsame : ∀ windowNum windowStart windowEnd, Scheduled { s with
        windowNum := windowNum, windowStart := windowStart, windowEnd := windowEnd
        rerunTest := false } .testReady := fun _ _ _ =>
      ⟨.inl hrange, h.reads, h.complete, fun _ _ => htest, hinPass.imp_right fun hin =>
        .inl ⟨hin.view, hin.testNum⟩⟩
    split_ifs <;> exact hsame _ _ _

/-- The pass that is going on does not depend on neutral events, nor on anything that a step within
a test changes. -/
theorem InPass.of_log {index : ℕ} (h : InPass s index) {events : List MainEvent}
    (hlog : s'.log = s.log ++ events) (hevents : ∀ e ∈ events, e.IsNeutral)
    (hconfig : s.SameConfig s') (hindex : s'.testNumIndex = s.testNumIndex)
    (htest : s'.testNum = s.testNum) : InPass s' index where
  view := by
    rw [hlog, passView_append_neutral hevents, h.view, hconfig.passNum, hconfig.due,
      MainState.dueUpTo, MainState.dueUpTo, hconfig.enabled, hconfig.testSequence]
  testNum beyond := by rw [htest, hindex, hconfig.testSequence, h.testNum beyond]

/-- A step that does not begin or end anything. -/
theorem Scheduled.of_log {point point' : WaitPoint} (h : Scheduled s point)
    (hpoint : point ≠ .loopTop) (hpoint' : point ≠ .finished) {events : List MainEvent}
    (hlog : s'.log = s.log ++ events)
    (hevents : ∀ e ∈ events, e.IsNeutral ∧ ∀ t, e = .indexTest t → t = s.testNum)
    (hrestart : s.restart = true → s'.restart = true)
    (hkeep : s'.restart = true ∨ s.SameConfig s') (hstart : s'.startTest = s.startTest)
    (hindex : s'.testNumIndex = s.testNumIndex) (htest : s'.testNum = s.testNum) :
    Scheduled s' point' := by
  have hrange := h.inRange.resolve_right fun h => h.1.elim hpoint hpoint'
  refine ⟨.inl (by rwa [hindex, htest]), fun t ht => ?_, ?_, fun _ _ => ?_, ?_⟩
  · rw [hlog] at ht
    obtain ht | ht := List.mem_append.mp ht
    · exact h.reads t ht
    · rw [(hevents _ ht).2 t rfl]
      exact hrange.2
  · rw [hlog]
    exact h.complete.append fun n hmem => (hevents _ hmem).1
  · rw [hstart, h.startTest hpoint hpoint']
  · obtain hr | hin | hp := h.inPass
    · exact .inl (hrestart hr)
    · refine hkeep.imp_right fun hkeep => .inl ?_
      rw [MainState.numStarted, hstart, hindex]
      exact hin.of_log hlog (fun e he => (hevents e he).1) hkeep hindex htest
    · exact absurd hp.1 (not_or.mpr ⟨hpoint, hpoint'⟩)

theorem Scheduled.testStep {point point' : WaitPoint} (h : Scheduled s point)
    (hpoint : point ≠ .loopTop) (hpoint' : point ≠ .finished) (hstep : TestStep inp s s') :
    Scheduled s' point' := by
  obtain ⟨events, hlog, hevents⟩ := hstep.log
  refine h.of_log hpoint hpoint' hlog (fun e he => ?_) hstep.restart
    (hstep.keep.imp_right And.left) hstep.startTest hstep.testNumIndex hstep.testNum
  obtain rfl | ⟨iterations, windowNum, rfl⟩ := hevents e he
  · exact ⟨trivial, fun t heq => (MainEvent.indexTest.inj heq).symm⟩
  · exact ⟨trivial, nofun⟩

/-- `main` is entered anew in the middle of a test. -/
theorem Scheduled.fetchTest {target : LoadAddr} (h : Scheduled s (.runAt target))
    (beyond : ℤ) : Scheduled (s.fetchTest beyond) .loopTop := by
  have hindex := (h.inRange.resolve_right fun h => h.1.elim nofun nofun).1
  have hread := s.testSequence.read_inRange beyond hindex
  refine ⟨.inl ⟨hindex, hread⟩, fun t ht => ?_, h.complete.append (by simp), fun h => absurd rfl h,
    h.inPass.imp_right fun hin => .inl ?_⟩
  · obtain ht | ht := List.mem_append.mp ht
    · exact h.reads t ht
    · exact absurd (List.mem_singleton.mp ht) nofun
  · have hin := hin.resolve_right fun h => h.1.elim nofun nofun
    refine ⟨?_, fun beyond' => (hin.testNum beyond).symm.trans (hin.testNum beyond')⟩
    exact (passView_append_neutral fun e he => by
      rw [List.mem_singleton.mp he]
      trivial).trans hin.view

/-- CPU 0 leaves a test. The word behind the array ends the pass. -/
theorem Scheduled.nextTest (h : Scheduled s .testDone) (hrestart : s.restart = false)
    (hbeyond : (numTestPatterns : ℤ) ≤ inp.beyond) :
    Scheduled (nextTest inp s).1 (nextTest inp s).2 := by
  have hrange := h.inRange.resolve_right fun h => h.1.elim nofun nofun
  have hstart := h.startTest nofun nofun
  have hin : InPass s (s.testNumIndex + 1) := by
    have hin := (h.inPass.resolve_left (by simp [hrestart])).resolve_right
      fun h => h.1.elim nofun nofun
    rwa [MainState.numStarted, if_neg (by simp [hstart])] at hin
  obtain ⟨s₁, hs₁⟩ : ∃ s₁, s₁ = { s with
    startTest := true, testNumIndex := s.testNumIndex + 1 }.fetchTest inp.beyond := ⟨_, rfl⟩
  have hlog : s₁.log = s.log ++ [.readSequence (s.testNumIndex + 1)] := by rw [hs₁]; rfl
  have hview : passView s₁.log = some ⟨s.passNum, s.due, s.dueUpTo (s.testNumIndex + 1)⟩ := by
    rw [hlog, passView_append_neutral (by simp [MainEvent.IsNeutral]), hin.view]
  have hreads : ∀ t, .indexTest t ∈ s₁.log → 0 ≤ t ∧ t < (numTestPatterns : ℤ) := fun t ht =>
    h.reads t (by simpa [hlog] using ht)
  have hcomplete : PassesComplete s₁.log := hlog ▸ h.complete.append (by simp)
  have htestNum : s₁.testNum = s.testSequence.read inp.beyond (s.testNumIndex + 1) := by
    rw [hs₁]
    rfl
  obtain ⟨hlt, heq⟩ | ⟨hge, heq⟩ := nextTest_cases inp s hs₁
  · have hindex : s.testNumIndex + 1 < numTestPatterns := by
      by_contra hge
      rw [htestNum, s.testSequence.read_of_le _ (Nat.not_lt.mp hge)] at hlt
      exact absurd hlt (not_lt.mpr hbeyond)
    rw [heq]
    subst hs₁
    refine ⟨.inl ⟨hindex, s.testSequence.read_inRange inp.beyond hindex⟩, hreads, hcomplete,
      fun h => absurd rfl h, .inr (.inl ⟨hview, fun beyond => ?_⟩)⟩
    exact s.testSequence.read_eq _ _ hindex
  · have hindex : s.testNumIndex + 1 = numTestPatterns := by
      refine le_antisymm hrange.1 (Nat.not_lt.mp fun hlt => ?_)
      rw [htestNum] at hge
      exact absurd (s.testSequence.read_inRange inp.beyond hlt).2 (not_lt.mpr hge)
    rw [hindex, s.dueUpTo_all] at hview
    obtain ⟨startRun, startPass, dummyRun, point, hend, hnext, hpoint⟩ :=
      endPass_cases inp.noErrors s₁
    have hpass : s₁.passNum = s.passNum := by rw [hs₁]; rfl
    rw [heq, hend]
    exact ⟨.inr ⟨hpoint, hnext⟩, fun t ht => hreads t (by simpa using ht),
      hcomplete.endPass hview rfl (by rw [hpass]),
      fun h h' => absurd hpoint (not_or.mpr ⟨h, h'⟩), .inr (.inr ⟨hpoint, hnext⟩)⟩

/-- The end of a trip. -/
theorem Scheduled.epilogue (h : Scheduled s .testDone) (cfg : MainConfig)
    (hbeyond : (numTestPatterns : ℤ) ≤ inp.beyond) :
    Scheduled (epilogue cfg inp s).1 (epilogue cfg inp s).2 := by
  obtain ⟨s₁, hs₁⟩ : ∃ s₁, s₁ = checkInput cfg s inp.menus := ⟨_, rfl⟩
  have h₁ : Scheduled s₁ .testDone := by
    have hstep := MenuStep.checkInput cfg s inp.menus
    rw [hs₁]
    exact h.of_log nofun nofun ((checkInput_log cfg s inp.menus).trans (List.append_nil _).symm)
      (by simp) hstep.restart hstep.keep (by simp) (by simp) (by simp)
  have hafter : ∀ testStage masterCpu rerunTest point, Scheduled
      { s₁.afterStage testStage masterCpu with rerunTest := rerunTest } point :=
    fun _ _ _ _ => h₁.of_log nofun nofun rfl (by simp [MainEvent.IsNeutral]) id
      (.inr ⟨rfl, rfl, rfl, rfl⟩) rfl rfl rfl
  obtain ⟨-, heq⟩ | ⟨hrestart, -, heq⟩ | ⟨hrestart, -, heq⟩ := epilogue_cases cfg inp s hs₁
  · rw [heq]
    have hrange := h₁.inRange.resolve_right fun h => h.1.elim nofun nofun
    exact ⟨.inl hrange, fun t ht => h₁.reads t (by simpa using ht), h₁.complete.append (by simp),
      fun h => absurd rfl h, .inr (.inr ⟨.inl rfl, .inl rfl⟩)⟩
  · rw [heq]
    refine Scheduled.nextTest (h₁.of_log nofun nofun rfl ?_ id (.inr ⟨rfl, rfl, rfl, rfl⟩) rfl
      rfl rfl) hrestart hbeyond
    simp [MainEvent.IsNeutral]
  · obtain ⟨-, heq'⟩ | ⟨-, -, -, heq'⟩ | ⟨next, -, -, heq'⟩ := endStage_cases cfg inp s₁
    · rw [heq, heq']
      exact hafter _ _ true _
    · rw [heq, heq']
      exact hafter _ _ true _
    · rw [heq, heq']
      exact (hafter 0 next s₁.rerunTest .testDone).nextTest hrestart hbeyond

/-- A step of the program. -/
theorem Scheduled.mainStep (h : Scheduled s l.point)
    (hbeyond : (numTestPatterns : ℤ) ≤ inp.beyond)
    (hstep : mainStep cfg inp (s, l) = some (s', l')) : Scheduled s' l'.point := by
  obtain ⟨hl, rfl, hl'⟩ | ⟨hl, hstep, -⟩ | ⟨⟨target, hl⟩, rfl, hl'⟩ | ⟨hl, heq⟩ :=
    mainStep_cases hstep
  · rw [hl] at h
    rw [hl']
    by_cases hpass : s.startRun = true ∨ s.startPass = true
    · exact h.prologue_of_startPass inp.beyond hpass
    · exact h.prologue_of_not inp.beyond hpass
  · refine h.testStep ?_ ?_ hstep <;> intro heq <;> rw [heq] at hl <;> exact hl
  · rw [hl] at h
    rw [hl']
    exact h.fetchTest inp.beyond
  · rw [hl] at h
    have hnext := h.epilogue cfg hbeyond
    rwa [heq] at hnext

/-! ### The schedule of a run -/

section

variable {inps : List Input} {t₀ t : MainState × CpuState}

theorem IsInitial.inRange (h : IsInitial t₀) : InRange t₀.1 := by
  have hread := t₀.1.testSequence.read_inRange 0 (Nat.zero_lt_succ 11)
  refine ⟨h.testNumIndex ▸ Nat.zero_lt_succ 11, h.testNum ▸ hread, fun e he => ?_, fun n hn => ?_⟩
  · rw [h.log] at he
    rw [List.mem_singleton.mp he]
    exact Nat.zero_lt_succ 11
  · rw [h.log] at hn
    exact absurd (List.mem_singleton.mp hn) nofun

theorem IsInitial.scheduled (h : IsInitial t₀) : Scheduled t₀.1 t₀.2.point where
  inRange := .inl ⟨h.inRange.testNumIndex, h.inRange.testNum⟩
  reads t ht := h.inRange.reads _ ht
  complete before n after heq := absurd (heq ▸ by simp) (h.inRange.noEndPass n)
  startTest hne := absurd h.point hne
  inPass := .inr (.inr ⟨.inl h.point, .inl h.startRun⟩)

/-- The step that ends a pass reads behind the array. -/
theorem EndsPass.readSequence (h : EndsPass cfg inp (s, l))
    (hstep : mainStep cfg inp (s, l) = some (s', l')) :
    .readSequence numTestPatterns ∈ s'.log := by
  obtain ⟨hpoint, hrestart, hindex, hdone⟩ := h
  replace hpoint : l.point = .testDone := hpoint
  have hnext : ∀ s₁, s₁.testNumIndex + 1 = numTestPatterns →
      .readSequence numTestPatterns ∈ (nextTest inp s₁).1.log := by
    intro s₁ hs₁
    obtain ⟨_, _, _, _, _, _, _, heq, -⟩ := nextTest_eq inp s₁
    rw [heq, ← hs₁]
    exact List.mem_append_right _ List.mem_cons_self
  obtain ⟨hl, -, -⟩ | ⟨hl, -, -⟩ | ⟨⟨target, hl⟩, -, -⟩ | ⟨-, heq⟩ := mainStep_cases hstep
  · exact absurd (hpoint.symm.trans hl) (by simp)
  · exact absurd hl (by simp [hpoint, WaitPoint.InTest])
  · exact absurd (hpoint.symm.trans hl) (by simp)
  obtain ⟨hr, -⟩ | ⟨-, -, heq'⟩ | ⟨-, henabled, heq'⟩ := epilogue_cases cfg inp s rfl
  · exact absurd (hr.symm.trans hrestart) Bool.false_ne_true.symm
  · rw [heq] at heq'
    have hmem := hnext ((checkInput cfg s inp.menus).record
      (.indexTest (checkInput cfg s inp.menus).testNum)) hindex
    rwa [← heq'] at hmem
  · obtain ⟨hstages, next, hleaves⟩ := hdone henabled
    obtain ⟨hlt, -⟩ | ⟨-, hrot, hne, -⟩ | ⟨next', -, -, hend⟩ :=
      endStage_cases cfg inp (checkInput cfg s inp.menus)
    · exact absurd hlt (Nat.not_lt.mpr hstages)
    · exact absurd (hleaves.masterCpu hrot) hne
    · have hmem := hnext ((checkInput cfg s inp.menus).afterStage 0 next') hindex
      rw [heq, hend] at heq'
      rwa [← heq'] at hmem

/-- **Schedule.** A run stays within the arrays and completes its passes as long as it does not
end one: exactly then. If the word behind `test_sequence` is no number of a test, then that read
is the only one out of range, and the passes are complete.

The second part is what the code comes to on a build whose linker puts a large word there. It is
kept apart because the value of the word is not the program's to choose (`Input.beyond`). -/
theorem schedule_iff (h₀ : IsInitial t₀) (hrun : mainRun cfg inps t₀ = some t) :
    (ReadsInRange t.1.log ∧ PassesComplete t.1.log ↔
      Executions.Always (mainStep cfg) (fun inp t => ¬EndsPass cfg inp t) inps t₀) ∧
    ((∀ inp ∈ inps, (numTestPatterns : ℤ) ≤ inp.beyond) →
      (∀ testNum, .indexTest testNum ∈ t.1.log →
        0 ≤ testNum ∧ testNum < (numTestPatterns : ℤ)) ∧ PassesComplete t.1.log) := by
  refine ⟨⟨fun hok before inp after u hinps hu hends => ?_, fun halways => ?_⟩, fun hbeyond => ?_⟩
  · rw [hinps] at hrun
    obtain ⟨u', hu', hrun⟩ := Executions.exec_append_eq_some.mp hrun
    obtain ⟨v, hv, hrun⟩ := Executions.exec_cons_eq_some.mp hrun
    rw [Option.some.inj (hu'.symm.trans hu)] at hv
    have hmem := (mainRun_log hrun).subset (hends.readSequence hv)
    exact absurd (hok.1 _ hmem) (lt_irrefl _)
  · have hinv := Executions.exec_invariant (I := fun t => InRange t.1)
      (fun inp t t' hends h hstep => h.mainStep hends hstep) halways h₀.inRange hrun
    exact ⟨hinv.reads, fun before n after heq => absurd (heq ▸ by simp) (hinv.noEndPass n)⟩
  · have hinv := Executions.exec_invariant (I := fun t => Scheduled t.1 t.2.point)
      (fun inp t t' hbeyond h hstep => h.mainStep hbeyond hstep)
      (Executions.Always.of_forall fun inp hinp _ => hbeyond inp hinp) h₀.scheduled hrun
    exact ⟨hinv.reads, hinv.complete⟩

end

/-! ### A run of one pass -/

/-- A machine with one CPU and some memory. -/
def oneCpuConfig : MainConfig where
  numAvailableCpus := 1
  numAvailableCpus_pos := Nat.one_pos
  disabled _ := false
  bsp_enabled := rfl
  flags := ⟨true, true⟩
  numa := ⟨false, []⟩
  pmMap := [⟨0, 0x100⟩, ⟨0x400, 0x8000⟩]
  beforePmMap := 0
  aroundTestList _ := ⟨.par, 1, 1⟩

/-- The state in which the program comes to the main loop, with a choice of the tests and of the
CPU mode. -/
def mainInit (enabled : ℤ → Bool) (cpuMode : CpuMode) : MainState × CpuState :=
  ({ startRun := true, startPass := false, startTest := false, rerunTest := false
     dummyRun := true, restart := false, bail := false, passNum := 0, maxPassNum := 1
     testNumIndex := 0, testNum := 0, testStage := 0
     windowNum := 0, windowStart := 0, windowEnd := 0, vm := ⟨[], 0⟩, mappedWindow := 0
     masterCpu := 0, numActiveCpus := 1, cpuMode := cpuMode, limits := ⟨0, 0x8000⟩
     enabled := enabled, testSequence := .default, log := [.readSequence 0] },
    ⟨.loopTop, false, false, 0, .low⟩)

theorem isInitial_mainInit (enabled : ℤ → Bool) (cpuMode : CpuMode) :
    IsInitial (mainInit enabled cpuMode) :=
  ⟨rfl, rfl, rfl, rfl, rfl, rfl, rfl, rfl⟩

/-- The user does nothing, and behind the array lies a large word. -/
def quietInput : Input := ⟨[], 255, true⟩

theorem schedule_iff_onePass :
    ∃ t, mainRun oneCpuConfig (List.replicate 50 quietInput)
        (mainInit (fun n => n = 4) .par) = some t ∧
      ((∀ testNum, .indexTest testNum ∈ t.1.log →
        0 ≤ testNum ∧ testNum < (numTestPatterns : ℤ)) ∧ PassesComplete t.1.log) := by
  have hsome : (mainRun oneCpuConfig (List.replicate 50 quietInput)
      (mainInit (fun n => n = 4) .par)).isSome = true := by decide
  obtain ⟨t, ht⟩ := Option.isSome_iff_exists.mp hsome
  refine ⟨t, ht, (schedule_iff (isInitial_mainInit _ _) ht).2 fun inp hinp => ?_⟩
  rw [List.eq_of_mem_replicate hinp]
  decide

/-- At the end of the first pass the sequence is read behind its end. -/
theorem not_readsInRange_onePass :
    ¬∀ (cfg : MainConfig) (inps : List Input) (t₀ t : MainState × CpuState), IsInitial t₀ →
      mainRun cfg inps t₀ = some t → ReadsInRange t.1.log ∧ PassesComplete t.1.log := by
  intro h
  have hread : ((mainRun oneCpuConfig (List.replicate 50 quietInput)
      (mainInit (fun n => n = 4) .par)).map fun t =>
        t.1.log.contains (.readSequence numTestPatterns)) = some true := by decide
  obtain ⟨t, ht, hmem⟩ := Option.map_eq_some_iff.mp hread
  exact absurd ((h _ _ _ t (isInitial_mainInit _ _) ht).1 _ (List.contains_iff_mem.mp hmem))
    (lt_irrefl _)

end Memtest
