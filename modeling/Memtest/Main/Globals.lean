import Memtest.Windows.AllWindows
import Mathlib.Data.List.Perm.Subperm

/-!
# The globals of the main loop (`app/main.c`) and the menus that change them (`app/config.c`)

The main loop is a set of nested loops written as one: which run, pass, test and stage comes next
is kept in globals, so that the program can move itself in the middle of a test and go on. The
user can change the configuration from a menu whenever `check_input` is called. Almost every change
sets `restart`, and a menu that is left with `restart` set sets `bail`.

An array is read here at any index. What lies around `test_list` and behind `test_sequence` is not
part of the source; it is a parameter.
-/

namespace Memtest

/-- `cpu_mode_t`. -/
inductive CpuMode
  | par
  | seq
  | one
  deriving DecidableEq, Repr

/-- `NUM_TEST_PATTERNS`. -/
def numTestPatterns : ℕ := 12

/-- `NUM_PASS_TYPES`. -/
def numPassTypes : ℕ := 2

/-- The columns of `test_pattern_t` that do not change. -/
structure TestPattern where
  cpuMode : CpuMode
  stages : ℕ
  iterations : ℕ
  deriving DecidableEq, Repr

/-- `test_list`. -/
def testList : List TestPattern :=
  [⟨.one, 1, 6⟩, ⟨.one, 1, 6⟩, ⟨.one, 2, 6⟩, ⟨.par, 1, 32⟩, ⟨.par, 1, 6⟩, ⟨.par, 1, 128⟩,
    ⟨.par, 1, 3⟩, ⟨.par, 1, 8⟩, ⟨.par, 1, 81⟩, ⟨.par, 1, 1⟩, ⟨.par, 12, 120⟩, ⟨.one, 1, 24⟩]

/-! ### The test sequence -/

/-- A content of `test_sequence`: every test once. -/
structure TestSequence where
  order : List ℕ
  perm : order.Perm (List.range numTestPatterns)
  deriving DecidableEq

/-- The test sequence the program starts with. -/
def TestSequence.default : TestSequence := ⟨List.range numTestPatterns, .refl _⟩

/-- `test_sequence[index]`, where `beyond` is found behind the array. -/
def TestSequence.read (sequence : TestSequence) (beyond : ℤ) (index : ℕ) : ℤ :=
  (sequence.order[index]?.map Nat.cast).getD beyond

/-- The local array `test` of `set_all_sequence` when so many of the values the user enters have
been accepted, or `none` where one of them is out of range or repeated. -/
def acceptSequence (values : ℕ → ℤ) : ℕ → Option (List ℕ)
  | 0 => some []
  | i + 1 => do
      let test ← acceptSequence values i
      if values i < 0 ∨ values i ≥ numTestPatterns then none
      else if (values i).toNat ∈ test then none
      else some (test ++ [(values i).toNat])

/-- What has been accepted is without repetition and in range. -/
theorem acceptSequence_spec {values : ℕ → ℤ} {i : ℕ} {test : List ℕ}
    (h : acceptSequence values i = some test) :
    test.length = i ∧ test.Nodup ∧ ∀ t ∈ test, t < numTestPatterns := by
  induction i generalizing test with
  | zero =>
    obtain rfl := Option.some.inj h
    exact ⟨rfl, List.nodup_nil, fun t ht => absurd ht List.not_mem_nil⟩
  | succ i ih =>
    obtain ⟨before, hbefore, h⟩ := Option.bind_eq_some_iff.mp h
    obtain ⟨hlen, hnodup, hrange⟩ := ih hbefore
    split_ifs at h with hvalue hmem
    obtain rfl := Option.some.inj h
    refine ⟨by rw [List.length_append, hlen, List.length_singleton],
      List.nodup_append.mpr ⟨hnodup, List.nodup_singleton _, fun t ht t' ht' => ?_⟩,
      fun t ht => ?_⟩
    · rw [List.mem_singleton.mp ht']
      exact fun heq => hmem (heq ▸ ht)
    · obtain ht | ht := List.mem_append.mp ht
      · exact hrange t ht
      · rw [List.mem_singleton.mp ht]
        omega

/-- A full array is a permutation. -/
theorem acceptSequence_perm {values : ℕ → ℤ} {test : List ℕ}
    (h : acceptSequence values numTestPatterns = some test) :
    test.Perm (List.range numTestPatterns) := by
  obtain ⟨hlen, hnodup, hrange⟩ := acceptSequence_spec h
  refine (List.subperm_of_subset hnodup fun t ht => ?_).perm_of_length_le ?_
  · exact List.mem_range.mpr (hrange t ht)
  · rw [hlen, List.length_range]

/-- `set_all_sequence`, for the values the user enters: the new sequence, or `none` where it
returns false. -/
def setAllSequence (values : ℕ → ℤ) : Option TestSequence :=
  match h : acceptSequence values numTestPatterns with
  | some test => some ⟨test, acceptSequence_perm h⟩
  | none => none

/-! ### The state -/

/-- What happens in the main loop, as far as it can be seen from outside or reads an array.
`startPass` comes with the tests that are due, `startTest` is an enabled test that starts, `runTest`
a window in which the master runs a test, `endStage` an enabled test that has gone through its
windows. -/
inductive MainEvent
  | readSequence (index : ℕ)
  | indexTest (testNum : ℤ)
  | startPass (passNum : ℕ) (due : List ℕ)
  | startTest (testNum : ℤ)
  | runTest (testNum : ℤ) (stage masterCpu iterations windowNum : ℕ)
  | endStage (testNum : ℤ) (stage masterCpu : ℕ)
  | restart
  | endPass (passNum : ℕ)
  deriving DecidableEq

/-- What the main loop reads and does not change. `disabled` says whose `cpu_state` is
`CPU_STATE_DISABLED`. -/
structure MainConfig where
  numAvailableCpus : ℕ
  numAvailableCpus_pos : 0 < numAvailableCpus
  disabled : ℕ → Bool
  bsp_enabled : disabled 0 = false
  flags : CpuFlags
  numa : NumaConfig
  pmMap : List PmSegment
  beforePmMap : ℕ
  aroundTestList : ℤ → TestPattern

/-- The globals that `main.c` and the code it calls share, and a log. The flags come first, then
the place in the run, the window under test with its map, what the CPUs agree on, and the
configuration that the menus change. The log records what the results are stated about: the index
of a test, a test on a window, and the end of a stage and of a pass. -/
structure MainState where
  startRun : Bool
  startPass : Bool
  startTest : Bool
  rerunTest : Bool
  dummyRun : Bool
  restart : Bool
  bail : Bool
  passNum : ℕ
  maxPassNum : ℕ
  testNumIndex : ℕ
  testNum : ℤ
  testStage : ℕ
  windowNum : ℕ
  windowStart : ℕ
  windowEnd : ℕ
  vm : VmMapState
  mappedWindow : ℕ
  masterCpu : ℕ
  numActiveCpus : ℕ
  cpuMode : CpuMode
  limits : PageLimits
  enabled : ℤ → Bool
  testSequence : TestSequence
  log : List MainEvent

/-- The CPUs that are not disabled: all of them run `main`. -/
def MainConfig.enabledCpus (cfg : MainConfig) : List ℕ :=
  (List.range cfg.numAvailableCpus).filter fun cpu => !cfg.disabled cpu

/-- `test_list[testNum]`, less its flag `enabled`. -/
def MainConfig.testPattern (cfg : MainConfig) (testNum : ℤ) : TestPattern :=
  if 0 ≤ testNum then testList.getD testNum.toNat (cfg.aroundTestList testNum)
  else cfg.aroundTestList testNum

/-- The configuration of the window loop. -/
def MainConfig.windows (cfg : MainConfig) (s : MainState) : WindowConfig where
  flags := cfg.flags
  numa := cfg.numa
  limits := s.limits
  pmMap := cfg.pmMap
  stages := (cfg.testPattern s.testNum).stages
  beforePmMap := cfg.beforePmMap

/-- `pm_map[pm_map_size - 1].end`. -/
def MainConfig.lastEnd (cfg : MainConfig) : ℕ :=
  (cfg.pmMap.getLast?.map fun seg => seg.stop.toNat).getD cfg.beforePmMap

def MainState.record (s : MainState) (e : MainEvent) : MainState := { s with log := s.log ++ [e] }

/-- The tests of a pass: the enabled ones, in the order of the sequence. -/
def MainState.due (s : MainState) : List ℕ :=
  s.testSequence.order.filter fun t => s.enabled t

/-- `test_num = test_sequence[test_num_index]`. -/
def MainState.fetchTest (s : MainState) (beyond : ℤ) : MainState :=
  { s.record (.readSequence s.testNumIndex) with
    testNum := s.testSequence.read beyond s.testNumIndex }

/-! ### The menus -/

/-- What the user can do in a menu, one entry for each key with an effect on the main loop. The
numbers are what `read_value` returns. -/
inductive MenuAction
  | setAllTests (enabled : Bool)
  | addOrRemoveTest (n : ℤ) (add : Bool)
  | addTestRange (n1 n2 : ℤ)
  | setAllSequence (values : ℕ → ℤ)
  | setTestCycleTimes (num : ℤ)
  | setLowerLimit (page : ℕ)
  | setUpperLimit (page : ℕ)
  | testAllMemory
  | setCpuMode (mode : CpuMode)
  | skipTest
  | other

/-- The `enabled` flags of the tests from `n1` to `n2` are set. -/
def MainState.setEnabled (s : MainState) (n1 n2 : ℤ) (enabled : Bool) : MainState :=
  { s with enabled := fun n => if n1 ≤ n ∧ n ≤ n2 then enabled else s.enabled n, restart := true }

/-- What the menu does with the result of `set_all_sequence`. It sets `start_pass` in either
case. -/
def MainState.changeSequence (s : MainState) : Option TestSequence → MainState
  | some sequence => { s with testSequence := sequence, restart := true, startPass := true }
  | none => { s with startPass := true }

/-- One action in a menu, with the checks that the menu makes of what was typed. A change of the
tests that are enabled sets `restart`, also where it changes nothing; a sequence that is rejected
sets `start_pass` all the same, and a number of passes that is not positive still sets `restart`.
Other numbers out of range change nothing. `skipTest` ends the current test, and only that. -/
def menuAction (cfg : MainConfig) (s : MainState) : MenuAction → MainState
  | .setAllTests enabled => s.setEnabled 0 (numTestPatterns - 1) enabled
  | .addOrRemoveTest n add => if n < 0 ∨ n ≥ numTestPatterns then s else s.setEnabled n n add
  | .addTestRange n1 n2 =>
      if n1 < 0 ∨ n1 ≥ numTestPatterns then s
      else if n2 < n1 ∨ n2 ≥ numTestPatterns then s
      else s.setEnabled n1 n2 true
  | .setAllSequence values => s.changeSequence (setAllSequence values)
  | .setTestCycleTimes num =>
      if num > 0 then { s with maxPassNum := num.toNat, passNum := 0, restart := true }
      else { s with restart := true }
  | .setLowerLimit page =>
      if page < s.limits.upper then
        { s with limits := { s.limits with lower := page }, restart := true }
      else s
  | .setUpperLimit page =>
      if page > s.limits.lower then
        { s with limits := { s.limits with upper := page }, restart := true }
      else s
  | .testAllMemory => { s with limits := ⟨0, cfg.lastEnd⟩, restart := true }
  | .setCpuMode mode => { s with cpuMode := mode }
  | .skipTest => { s with bail := true }
  | .other => s

/-- `config_menu`. -/
def configMenu (cfg : MainConfig) (s : MainState) (actions : List MenuAction) : MainState :=
  let s' := actions.foldl (menuAction cfg) s
  let s' := if s'.cpuMode ≠ s.cpuMode then { s' with restart := true } else s'
  if s'.restart then { s' with bail := true } else s'

/-- Calls of `check_input`: the menus the user opens in their course. -/
def checkInput (cfg : MainConfig) (s : MainState) (menus : List (List MenuAction)) : MainState :=
  menus.foldl (configMenu cfg) s

/-! ### The next master -/

/-- The loop of `select_next_master`. `fuel` bounds its iterations; the result is `none` where it
is used up. -/
def selectNextMasterLoop (cfg : MainConfig) : ℕ → ℕ → Option ℕ
  | 0, _ => none
  | fuel + 1, masterCpu =>
      let masterCpu := (masterCpu + 1) % cfg.numAvailableCpus
      if cfg.disabled masterCpu then selectNextMasterLoop cfg fuel masterCpu else some masterCpu

/-- `select_next_master`. The loop comes round to CPU 0 at the latest. -/
def selectNextMaster (cfg : MainConfig) (s : MainState) : MainState :=
  { s with
    masterCpu := (selectNextMasterLoop cfg cfg.numAvailableCpus s.masterCpu).getD s.masterCpu }

end Memtest
