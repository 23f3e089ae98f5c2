import Memtest.Lib.Executions
import Memtest.Main.Globals

/-!
# The main loop (`main` and `test_all_windows` in `app/main.c`)

All CPUs run the same loop, and they wait for each other at `start_barrier`. The code of a CPU is
cut here at these waits: `segment` is what a CPU does from one wait to the next. What it does
depends on whether it is CPU 0, which does the work of the main loop, and on whether it is the
master, which does the work of `test_all_windows`.

`mainStep` takes the program as one thread that does the work of CPU 0 and of the master. How the
CPUs together do the same is in `Memtest.Main.Cpus`.
-/

namespace Memtest

/-- The waits at `start_barrier`: the three in `main`, the three in the loop of
`test_all_windows` and the one in `run_at`. CPU 0 does not come to a wait any more when it has
`finished` the last pass. -/
inductive WaitPoint
  | loopTop
  | testReady
  | testDone
  | windowEntry
  | windowChosen
  | windowMapped
  | runAt (target : LoadAddr)
  | finished
  deriving DecidableEq, Repr

/-- Where a CPU waits, the local variables of `test_all_windows`, and where the copy of the program
is loaded that the CPU runs. -/
structure CpuState where
  point : WaitPoint
  iAmMaster : Bool
  iAmActive : Bool
  iterations : ℕ
  loadAddr : LoadAddr
  deriving DecidableEq, Repr

/-- What comes from outside while the CPUs go from one wait to the next: the menus the user opens
in the course of the calls of `check_input`, what lies behind `test_sequence`, and whether
`error_count` is 0. -/
structure Input where
  menus : List (List MenuAction)
  beyond : ℤ
  noErrors : Bool

/-! ### The code of CPU 0 at the beginning of a trip -/

/-- The code under `if (start_run)`. -/
def beginRun (s : MainState) : MainState :=
  if s.startRun then { s with passNum := 0, startPass := true } else s

/-- The code under `if (start_pass)`. -/
def beginPass (beyond : ℤ) (s : MainState) : MainState :=
  if s.startPass then
    { ({ s.record (.startPass s.passNum s.due) with testNumIndex := 0 }.fetchTest beyond) with
      startTest := true }
  else s

/-- The code under `if (start_test)`. -/
def beginTest (s : MainState) : MainState :=
  if s.startTest then
    let s := { s.record (.indexTest s.testNum) with testStage := 0, rerunTest := true }
    let s := if s.enabled s.testNum then s.record (.startTest s.testNum) else s
    { s with bail := false }
  else s

/-- The code under `if (rerun_test)`. -/
def beginStage (s : MainState) : MainState :=
  if s.rerunTest then { s with windowNum := 0, windowStart := 0, windowEnd := 0 } else s

/-- What CPU 0 does between the first two waits of a trip. -/
def prologue (beyond : ℤ) (s : MainState) : MainState :=
  { beginStage (beginTest (beginPass beyond (beginRun s))) with
    startRun := false, startPass := false, startTest := false, rerunTest := false }

/-! ### The code of CPU 0 at the end of a trip -/

/-- The end of a pass. The dry run that sizes the progress bars ends with the last of the kinds of
pass, and the real run then starts from the beginning. A real pass is followed by another one
while no error was found and the number of passes is not reached. The program stays here when it
reports the result. -/
def endPass (noErrors : Bool) (s : MainState) : MainState × WaitPoint :=
  let s := { s.record (.endPass (s.passNum + 1)) with passNum := s.passNum + 1 }
  if s.dummyRun ∧ s.passNum = numPassTypes then
    ({ s with startRun := true, dummyRun := false }, .loopTop)
  else
    let s := { s with startPass := true }
    if s.dummyRun then (s, .loopTop)
    else if noErrors ∧ s.passNum < s.maxPassNum then (s, .loopTop)
    else (s, .finished)

/-- The code behind the `switch (cpu_mode)`. -/
def nextTest (inp : Input) (s : MainState) : MainState × WaitPoint :=
  let s := { s with startTest := true, testNumIndex := s.testNumIndex + 1 }.fetchTest inp.beyond
  if s.testNum < (numTestPatterns : ℤ) then (s, .loopTop) else endPass inp.noErrors s

/-- The rotation of the master. -/
def rotateMaster (cfg : MainConfig) (inp : Input) (s : MainState) : MainState × WaitPoint :=
  let s := selectNextMaster cfg s
  if s.masterCpu ≠ 0 then ({ s with rerunTest := true }, .loopTop) else nextTest inp s

/-- What CPU 0 does with the test when it has gone through its windows. A further stage runs the
same test again. After the last stage it depends on the CPU mode who runs it next: the next CPU in
the sequential mode, and in the parallel mode for the tests that are sequential; in the mode with
one CPU the master changes from test to test. -/
def endStage (cfg : MainConfig) (inp : Input) (s : MainState) : MainState × WaitPoint :=
  let s := { s.record (.endStage s.testNum s.testStage s.masterCpu) with
    testStage := s.testStage + 1 }
  if s.testStage < (cfg.testPattern s.testNum).stages then
    ({ s with rerunTest := true }, .loopTop)
  else
    let s := { s with testStage := 0 }
    match s.cpuMode with
    | .par =>
        if (cfg.testPattern s.testNum).cpuMode = .seq then rotateMaster cfg inp s
        else nextTest inp s
    | .one => nextTest inp (selectNextMaster cfg s)
    | .seq => rotateMaster cfg inp s

/-- What CPU 0 does behind the last wait of a trip. -/
def epilogue (cfg : MainConfig) (inp : Input) (s : MainState) : MainState × WaitPoint :=
  let s := checkInput cfg s inp.menus
  if s.restart then
    ({ s.record .restart with
      masterCpu := 0, startRun := true, dummyRun := true, restart := false }, .loopTop)
  else
    let s := s.record (.indexTest s.testNum)
    if s.enabled s.testNum then endStage cfg inp s else nextTest inp s

/-! ### The code of `test_all_windows` -/

/-- The code in front of the loop, for a CPU that is the master or is not. A test is parallel when
neither the mode nor the test says otherwise and the run is not a dummy run. The first pass has a
third of the iterations. The master alone writes the number of active CPUs; what every CPU
computes for itself are the two flags. -/
def enterTest (cfg : MainConfig) (isMaster : Bool) (s : MainState) (l : CpuState) :
    MainState × CpuState :=
  let pattern := cfg.testPattern s.testNum
  let parallelTest : Bool := !s.dummyRun && s.cpuMode == .par && pattern.cpuMode == .par
  let l : CpuState := {
    point := .windowEntry
    iAmMaster := isMaster
    iAmActive := isMaster || parallelTest
    iterations := if s.passNum = 0 then pattern.iterations / 3 else pattern.iterations
    loadAddr := l.loadAddr }
  if isMaster then
    ({ s with numActiveCpus := if parallelTest then cfg.enabledCpus.length else 1 }, l)
  else (s, l)

/-- The code between the first two waits of the loop. -/
def chooseWindow (cfg : MainConfig) (s : MainState) (l : CpuState) : MainState × CpuState :=
  if s.bail then (s, { l with point := .testDone })
  else if l.iAmMaster then
    ({ s with windowNum := skipWindow (cfg.windows s) s.windowNum },
      { l with point := .windowChosen })
  else (s, { l with point := .windowChosen })

/-- The code between the second wait and the third: either the program moves, or the window is
set up. -/
def setupWindow (cfg : MainConfig) (s : MainState) (l : CpuState) : MainState × CpuState :=
  if !s.dummyRun ∧ l.loadAddr ≠ targetLoadAddr s.windowNum then
    (s, { l with point := .runAt (targetLoadAddr s.windowNum) })
  else if l.iAmMaster then
    let w := nextWindow ⟨s.windowNum, s.windowStart, s.windowEnd, l.loadAddr, s.mappedWindow⟩
    ({ s with
        windowStart := w.windowStart
        windowEnd := w.windowEnd
        vm := setupVmMap cfg.numa s.limits cfg.pmMap w.windowStart w.windowEnd },
      { l with point := .windowMapped })
  else (s, { l with point := .windowMapped })

/-- Where the loop condition takes a CPU. -/
def loopPoint (cfg : MainConfig) (s : MainState) : WaitPoint :=
  if s.windowEnd < cfg.lastEnd then .windowEntry else .testDone

/-- A call of `run_test` by the master. -/
def runTest (cfg : MainConfig) (menus : List (List MenuAction)) (s : MainState) (l : CpuState) :
    MainState :=
  checkInput cfg ((s.record (.indexTest s.testNum)).record
    (.runTest s.testNum s.testStage s.masterCpu l.iterations s.windowNum)) menus

/-- The code behind the third wait, with the test of the window. A CPU that is not active only
waits, and a window without pages is passed over. Otherwise the first segment is mapped and the
test runs; if it cannot be mapped, the loop is left. It is the master that advances the window,
after its own test. -/
def testWindow (cfg : MainConfig) (inp : Input) (s : MainState) (l : CpuState) :
    MainState × CpuState :=
  if !l.iAmActive then (s, { l with point := loopPoint cfg s })
  else if s.vm.numMappedPages = 0 then
    let s := if l.iAmMaster then { s with windowNum := s.windowNum + 1 } else s
    (s, { l with point := loopPoint cfg s })
  else if s.dummyRun then
    -- a dummy run counts the ticks of the test and does not look at the keyboard
    let s := if l.iAmMaster then
      { runTest cfg [] s l with windowNum := s.windowNum + 1 } else s
    (s, { l with point := loopPoint cfg s })
  else
    match mapFirst cfg.flags s.vm s.mappedWindow with
    | none => (s, { l with point := .testDone })
    | some mappedWindow =>
        let s := { s with mappedWindow := mappedWindow }
        let s := if l.iAmMaster then
          { runTest cfg inp.menus s l with windowNum := s.windowNum + 1 } else s
        (s, { l with point := loopPoint cfg s })

/-! ### A CPU, and the program as one thread -/

/-- What a CPU does from one wait to the next, or `none` where it never comes to another one. The
points are the waits of `main` and `test_all_windows` in the order of the source; CPU 0 alone does
the work at the top and at the bottom of the loop, in `prologue` and `epilogue`. -/
def segment (cfg : MainConfig) (inp : Input) (isBsp isMaster : Bool) (s : MainState)
    (l : CpuState) : Option (MainState × CpuState) :=
  match l.point with
  | .loopTop =>
      some (if isBsp then prologue inp.beyond s else s, { l with point := .testReady })
  | .testReady =>
      let s := s.record (.indexTest s.testNum)
      some (if s.enabled s.testNum then enterTest cfg isMaster s l
        else (s, { l with point := .testDone }))
  | .windowEntry => some (chooseWindow cfg s l)
  | .windowChosen => some (setupWindow cfg s l)
  | .windowMapped => some (testWindow cfg inp s l)
  | .runAt target =>
      -- `main` is entered anew
      some (s.fetchTest inp.beyond, { l with point := .loopTop, loadAddr := target })
  | .testDone =>
      some (if isBsp then
          let r := epilogue cfg inp s
          (r.1, { l with point := r.2 })
        else (s, { l with point := .loopTop }))
  | .finished => none

/-- A step of the program taken as one thread. -/
def mainStep (cfg : MainConfig) (inp : Input) (t : MainState × CpuState) :
    Option (MainState × CpuState) :=
  segment cfg inp true true t.1 t.2

/-- Several steps. -/
def mainRun (cfg : MainConfig) : List Input → MainState × CpuState →
    Option (MainState × CpuState) :=
  Executions.exec (mainStep cfg)

/-- The state in which the CPUs come to the loop for the first time, after `global_init` and the
menu at the start. -/
structure IsInitial (t : MainState × CpuState) : Prop where
  startRun : t.1.startRun = true
  dummyRun : t.1.dummyRun = true
  restart : t.1.restart = false
  masterCpu : t.1.masterCpu = 0
  testNumIndex : t.1.testNumIndex = 0
  testNum : t.1.testNum = t.1.testSequence.read 0 0
  log : t.1.log = [.readSequence 0]
  point : t.2.point = .loopTop

end Memtest
