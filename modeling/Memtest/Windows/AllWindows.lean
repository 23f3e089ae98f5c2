import Memtest.Windows.VmMap

/-!
# The loop over the windows (`test_all_windows` in `app/main.c`)

A test runs in one window of memory after the other. Windows 0 and 1 are special: the program
itself has to be out of the way, so it runs from `high_load_addr` to test the first four megabytes
and from `low_load_addr` to test everything else. Moving it means jumping to the start of the copy
and entering `test_all_windows` anew; `window_num`, `window_start` and `window_end` are globals, so
the loop goes on where it was.

The model is a run of the master CPU in which `bail` is not set and `dummy_run` is false.
-/

namespace Memtest

/-- `LOW_LOAD_LIMIT`, an address. -/
def lowLoadLimit : ℕ := 0x400000

/-- Where the program is loaded. -/
inductive LoadAddr
  | low
  | high
  | other
  deriving DecidableEq, Repr

/-- What `test_all_windows` reads and does not change. `beforePmMap` is the value found at
`pm_map[-1].end`, which the loop condition reads when the tested-page map is empty. -/
structure WindowConfig where
  flags : CpuFlags
  numa : NumaConfig
  limits : PageLimits
  pmMap : List PmSegment
  stages : ℕ
  beforePmMap : ℕ
  deriving DecidableEq, Repr

/-- The globals of the loop. -/
structure WindowState where
  windowNum : ℕ
  windowStart : ℕ
  windowEnd : ℕ
  loadAddr : LoadAddr
  mappedWindow : ℕ
  deriving DecidableEq, Repr

/-- A window the loop has set up: what was passed to `setup_vm_map`, what that left, and
`mapped_window` when the test ran. -/
structure Visit where
  winStart : ℕ
  winEnd : ℕ
  vm : VmMapState
  mappedWindow : ℕ
  deriving DecidableEq, Repr

/-- The range of pages of a visit. -/
def Visit.range (v : Visit) : ℕ × ℕ := (v.winStart, v.winEnd)

/-- The globals at the start of a test (or of a further stage of it), when `rerun_test` has reset
the window. -/
def WindowState.init (loadAddr : LoadAddr) (mappedWindow : ℕ) : WindowState where
  windowNum := 0
  windowStart := 0
  windowEnd := 0
  loadAddr := loadAddr
  mappedWindow := mappedWindow

/-- The tests that skip window 0. The second one compares a page number to an address. -/
def skipWindow (cfg : WindowConfig) (windowNum : ℕ) : ℕ :=
  let windowNum := if windowNum = 0 ∧ cfg.stages > 1 then 1 else windowNum
  if windowNum = 0 ∧ cfg.limits.lower ≥ lowLoadLimit then 1 else windowNum

/-- The load address a window needs. -/
def targetLoadAddr (windowNum : ℕ) : LoadAddr := if windowNum > 0 then .low else .high

/-- The `switch (window_num)` that sets `window_start` and `window_end`. -/
def nextWindow (s : WindowState) : WindowState :=
  match s.windowNum with
  | 0 => { s with windowStart := 0, windowEnd := lowLoadLimit >>> pageShift }
  | 1 => { s with windowStart := lowLoadLimit >>> pageShift, windowEnd := vmWindowSize }
  | _ => { s with windowStart := s.windowEnd, windowEnd := s.windowEnd + vmWindowSize }

/-- The end of the last segment, as the loop condition reads it. -/
def WindowConfig.lastEnd (cfg : WindowConfig) : ℕ :=
  (cfg.pmMap.getLast?.map fun seg => seg.stop.toNat).getD cfg.beforePmMap

/-- The part of the loop body in front of the relocation. -/
def enterWindow (cfg : WindowConfig) (s : WindowState) : WindowState :=
  { s with windowNum := skipWindow cfg s.windowNum }

/-- `run_at`. -/
def runAt (loadAddr : LoadAddr) (s : WindowState) : WindowState := { s with loadAddr := loadAddr }

/-- The end of the loop body, with the value `map_window` has left in `mapped_window`. -/
def leaveWindow (mappedWindow : ℕ) (s : WindowState) : WindowState :=
  { s with windowNum := s.windowNum + 1, mappedWindow := mappedWindow }

/-- The new value of `mapped_window` when a window with pages to test is mapped, or `none`. -/
def mapFirst (flags : CpuFlags) (vm : VmMapState) (mappedWindow : ℕ) : Option ℕ :=
  if vm.numMappedPages = 0 then some mappedWindow
  else mapWindow flags ((vm.vmMap.head?.map VmSegment.pmBaseAddr).getD 0) mappedWindow

/-- `test_all_windows`: the windows it sets up. `fuel` bounds the iterations of its loop; the
result is `none` where it is used up. -/
def testAllWindows (cfg : WindowConfig) : ℕ → WindowState → Option (List Visit)
  | 0, _ => none
  | fuel + 1, s =>
      let s := enterWindow cfg s
      if s.loadAddr ≠ targetLoadAddr s.windowNum then
        -- `run_at` does not return: the loop is entered anew
        testAllWindows cfg fuel (runAt (targetLoadAddr s.windowNum) s)
      else
        let s := nextWindow s
        let vm := setupVmMap cfg.numa cfg.limits cfg.pmMap s.windowStart s.windowEnd
        match mapFirst cfg.flags vm s.mappedWindow with
        | none => some [⟨s.windowStart, s.windowEnd, vm, s.mappedWindow⟩]
        | some mappedWindow =>
            let visit : Visit := ⟨s.windowStart, s.windowEnd, vm, mappedWindow⟩
            if s.windowEnd < cfg.lastEnd then
              (testAllWindows cfg fuel (leaveWindow mappedWindow s)).map (visit :: ·)
            else some [visit]

/-- `update_num_pages_to_test` (`app/config.c`). -/
def updateNumPagesToTest (limits : PageLimits) (pmMap : List PmSegment) : ℕ :=
  pmMap.foldl (fun numPagesToTest seg =>
    let start := seg.start.toNat
    let stop := seg.stop.toNat
    if start ≥ limits.lower ∧ stop ≤ limits.upper then numPagesToTest + (stop - start)
    else if start < limits.lower then
      if stop < limits.lower then numPagesToTest
      else if stop > limits.upper then numPagesToTest + (limits.upper - limits.lower)
      else numPagesToTest + (stop - limits.lower)
    else if stop > limits.upper then
      if start > limits.upper then numPagesToTest
      else numPagesToTest + (limits.upper - start)
    else numPagesToTest) 0

end Memtest
