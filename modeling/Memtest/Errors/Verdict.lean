import Memtest.Errors.Calls
import Memtest.Lib.Executions
import Memtest.Main.Schedule

/-!
# The verdict

The program says that the memory has passed when `error_count` is 0 at the end of the last pass, and
so do the results that can be saved at any time. What has to be counted for that is every error
since the start of the last run that counts.

A report is dropped when `testpass` is 2 and `continue_on_error` is off. The first of these says
that there has been an error with a banner, and a new run does not take it back; the second can be
changed at any time. So a report may be dropped while the tests go on, and also when `error_count`
is 0.
-/

namespace Memtest.Errors

variable {arch : Arch}

/-! ### The program with its error record -/

/-- The main loop with the error record. The program is `halted` when one of its CPUs stays in a
call that has found an error, and `reports` are the reports of errors since the start of the last
run that counts. -/
structure VerdictState (arch : Arch) where
  main : MainState
  cpu : CpuState
  record : ErrorState arch
  continueOnError : Bool
  errorMode : ErrorMode
  halted : Bool
  reports : ℕ

/-- What a call goes by besides the state of the program: the CPU it is made on, and
`continue_on_error` when it is over, which the user may have changed in its course. -/
structure CallContext where
  myCpu : ℕ
  continueOnErrorPolled : Bool
  eccStatus : EccStatus
  smbios : Smbios

/-- What may happen: the program goes from one wait to the next; a CPU makes a call; the user
changes one of the settings that have no effect on the main loop. -/
inductive VerdictInput (arch : Arch)
  | trip (menus : List (List MenuAction)) (beyond : ℤ) (ctx : CallContext)
  | call (call : ErrorCall arch) (ctx : CallContext)
  | setContinueOnError (continueOnError : Bool)
  | setErrorMode (errorMode : ErrorMode)

namespace VerdictState

/-- What a call goes by. -/
def env (u : VerdictState arch) (ctx : CallContext) : ErrorEnv where
  errorMode := u.errorMode
  continueOnError := u.continueOnError
  continueOnErrorPolled := ctx.continueOnErrorPolled
  myCpu := ctx.myCpu
  masterCpu := u.main.masterCpu
  passNum := u.main.passNum
  testNum := u.main.testNum.toNat
  mappedWindow := u.main.mappedWindow
  eccStatus := ctx.eccStatus
  smbios := ctx.smbios

/-- A step of the main loop. -/
def mainStep (cfg : MainConfig) (menus : List (List MenuAction)) (beyond : ℤ)
    (u : VerdictState arch) : Option (VerdictState arch) :=
  (Memtest.mainStep cfg ⟨menus, beyond, u.record.errorCount = 0⟩ (u.main, u.cpu)).map fun t =>
    { u with main := t.1, cpu := t.2 }

/-- The calls with which CPU 0 starts a run that counts. -/
def beginRun (u : VerdictState arch) : VerdictState arch :=
  if u.main.startRun = true ∧ u.main.dummyRun = false then
    { u with record := startRun u.record, reports := 0 }
  else u

/-- The assignment to `testpass` at the end of the last pass. -/
def announce (u : VerdictState arch) : VerdictState arch :=
  if u.cpu.point = .finished then
    { u with record := { u.record with testpass := if u.record.errorCount = 0 then 1 else 2 } }
  else u

/-- CPU 0 at the end of a trip. -/
def endTrip (cfg : MainConfig) (menus : List (List MenuAction)) (beyond : ℤ) (ctx : CallContext)
    (u : VerdictState arch) : Option (VerdictState arch) :=
  let s := checkInput cfg u.main menus
  if s.restart = true then u.mainStep cfg menus beyond
  else
    let r := errorUpdate ({ u with main := s }.env ctx) u.record
    if r.halted = true then some { u with main := s, record := r.state, halted := true }
    else ({ u with record := r.state }.mainStep cfg menus beyond).map announce

/-- What the program does from one wait to the next. -/
def trip (cfg : MainConfig) (menus : List (List MenuAction)) (beyond : ℤ) (ctx : CallContext)
    (u : VerdictState arch) : Option (VerdictState arch) :=
  if u.halted = true then none
  else
    match u.cpu.point with
    | .loopTop => u.beginRun.mainStep cfg menus beyond
    | .testDone => u.endTrip cfg menus beyond ctx
    | _ => u.mainStep cfg menus beyond

end VerdictState

/-- A call reports an error, other than at an address the workaround for USB keyboards ignores. -/
def ErrorCall.IsReport : ErrorCall arch → Prop
  | .addrError _ _ _ => True
  | .dataError addr _ _ _ => ¬(addr = 0x4e0 ∨ addr = 0x410)
  | _ => False

instance : (call : ErrorCall arch) → Decidable call.IsReport
  | .addrError _ _ _ => isTrue trivial
  | .dataError addr _ _ _ => inferInstanceAs (Decidable (¬(addr = 0x4e0 ∨ addr = 0x410)))
  | .eccError | .parityError _ | .errorUpdate => isFalse id

namespace VerdictState

/-- A call on one of the CPUs. -/
def call (call : ErrorCall arch) (ctx : CallContext) (u : VerdictState arch) : VerdictState arch :=
  let r := call.exec (u.env ctx) u.record
  { u with
    record := r.state
    continueOnError := ctx.continueOnErrorPolled
    halted := u.halted || r.halted
    reports := if call.IsReport then u.reports + 1 else u.reports }

/-- A step. When CPU 0 has finished the last pass no other CPU is in a test. -/
def step (cfg : MainConfig) : VerdictInput arch → VerdictState arch → Option (VerdictState arch)
  | .trip menus beyond ctx, u => u.trip cfg menus beyond ctx
  | .call call ctx, u => if u.cpu.point = .finished then none else some (u.call call ctx)
  | .setContinueOnError continueOnError, u => some { u with continueOnError := continueOnError }
  | .setErrorMode errorMode, u => some { u with errorMode := errorMode }

/-- The status in the results that `format_results` writes. -/
inductive FinalResult
  | inProgress
  | pass
  | fail
  deriving DecidableEq

/-- The status in the results. -/
def finalResult (u : VerdictState arch) : FinalResult :=
  if u.main.passNum = 0 then .inProgress
  else if u.record.errorCount = 0 then .pass
  else .fail

/-- The program says that the memory has passed: in the end, or in the results. -/
def Passed (u : VerdictState arch) : Prop :=
  (u.cpu.point = .finished ∧ u.record.testpass = 1) ∨ u.finalResult = .pass

/-- The state in which the program comes to the main loop. -/
structure IsInitial (u : VerdictState arch) : Prop where
  main : Memtest.IsInitial (u.main, u.cpu)
  record : u.record = .initial arch
  halted : u.halted = false
  reports : u.reports = 0

end VerdictState

/-! ### What calls do to the error count -/

section

variable {env : ErrorEnv} {s : ErrorState arch} {call : ErrorCall arch} {type : ErrorType}
  {addr : ℕ}
  {good bad : BitVec arch.bits} {useForBadram : Bool}

/-- The error count after one more error. -/
def countedUp (errorCount : ℕ) : ℕ :=
  if errorCount < errorLimit then errorCount + 1 else errorCount

theorem le_countedUp (n : ℕ) : n ≤ countedUp n := by
  rw [countedUp]
  split <;> omega

theorem countedUp_pos (n : ℕ) : 0 < countedUp n := by
  have hlimit : 0 < errorLimit := by decide
  rw [countedUp]
  split <;> omega

theorem commonErr_errorCount (h : ¬Dropped env s) :
    (commonErr env type addr good bad useForBadram s).state.errorCount =
      if type = .newMode ∨ type = .cecc then s.errorCount else countedUp s.errorCount := by
  rw [commonErr_eq, if_neg h]
  dsimp only
  have hnote : (takeNote env type addr good bad useForBadram (newHeader env s) s).2.errorCount =
      if type = .newMode ∨ type = .cecc then s.errorCount else countedUp s.errorCount := by
    split
    · next hcorrected => exact takeNote_errorCount_of_corrected hcorrected
    · next huncorrected =>
      obtain ⟨hmode, hcecc⟩ := not_or.mp huncorrected
      exact takeNote_errorCount hmode hcecc
  split <;> exact hnote

theorem le_commonErr_errorCount :
    s.errorCount ≤ (commonErr env type addr good bad useForBadram s).state.errorCount := by
  by_cases h : Dropped env s
  · rw [commonErr_of_dropped h]
  · rw [commonErr_errorCount h]
    split
    · exact Nat.le_refl _
    · exact le_countedUp _

/-- A report is where the program stays only if there is an error. -/
theorem commonErr_halted (h : (commonErr env type addr good bad useForBadram s).halted = true) :
    0 < (commonErr env type addr good bad useForBadram s).state.errorCount := by
  rw [commonErr_eq] at h ⊢
  split at h
  · exact absurd h Bool.false_ne_true
  · next hs =>
    rw [if_neg hs]
    dsimp only at h ⊢
    split at h
    · next hstop =>
      rw [if_pos hstop]
      exact hstop.2.1
    · exact absurd h Bool.false_ne_true

/-- `error_update` does not count, and it is where the program stays only if there is an error. -/
theorem errorUpdate_spec (env : ErrorEnv) (s : ErrorState arch) :
    (errorUpdate env s).state.errorCount = s.errorCount ∧
      ((errorUpdate env s).halted = true → 0 < s.errorCount) := by
  have hnew : (reportNewMode env s).state.errorCount = s.errorCount := by
    by_cases h : Dropped { env with continueOnErrorPolled := env.continueOnError } s
    · rw [reportNewMode, commonErr_of_dropped h]
    · rw [reportNewMode, commonErr_errorCount h, if_pos (.inl rfl)]
  rw [errorUpdate]
  split
  · -- the report for a new mode, or none
    have hr : ∀ r : ErrorReport arch, r = (if env.errorMode ≠ s.lastErrorMode then
        reportNewMode env s else ⟨s, none, false⟩) →
        r.state.errorCount = s.errorCount ∧ (r.halted = true → 0 < s.errorCount) := by
      rintro r rfl
      split
      · exact ⟨hnew, fun h => hnew ▸ commonErr_halted h⟩
      · exact ⟨rfl, fun h => absurd h Bool.false_ne_true⟩
    have hspec := hr _ rfl
    generalize (if env.errorMode ≠ s.lastErrorMode then reportNewMode env s
      else ⟨s, none, false⟩) = r at hspec ⊢
    dsimp only
    split
    · next hfail => exact ⟨hspec.1, fun _ => hspec.1 ▸ hfail.2.1⟩
    · exact hspec
  · exact ⟨rfl, fun h => absurd h Bool.false_ne_true⟩

/-- A call that reports an error is one of `common_err`. -/
theorem ErrorCall.IsReport.exec_eq (h : call.IsReport) : ∃ type addr good bad useForBadram,
    (type ≠ .newMode ∧ type ≠ .cecc) ∧
      ∀ s, call.exec env s = commonErr env type addr good bad useForBadram s := by
  cases call with
  | addrError addr good bad =>
    exact ⟨.addr, addr, good, bad, false, ⟨nofun, nofun⟩, fun s => rfl⟩
  | dataError addr good bad useForBadram =>
    exact ⟨.data, addr, good, bad, useForBadram, ⟨nofun, nofun⟩, fun s => if_neg h⟩
  | _ => exact absurd h id

/-- A report counts unless it is dropped. -/
theorem ErrorCall.IsReport.errorCount (h : call.IsReport) :
    (call.exec env s).state.errorCount =
      if Dropped env s then s.errorCount else countedUp s.errorCount := by
  obtain ⟨type, addr, good, bad, useForBadram, ⟨hmode, hcecc⟩, heq⟩ := h.exec_eq
  rw [heq]
  split
  · next hdropped => rw [commonErr_of_dropped hdropped]
  · next hdropped => rw [commonErr_errorCount hdropped, if_neg (not_or.mpr ⟨hmode, hcecc⟩)]

/-- No call takes an error back, and a call is where the program stays only if there is one. -/
theorem ErrorCall.exec_spec (env : ErrorEnv) (call : ErrorCall arch) (s : ErrorState arch) :
    s.errorCount ≤ (call.exec env s).state.errorCount ∧
      ((call.exec env s).halted = true → 0 < (call.exec env s).state.errorCount) := by
  cases call with
  | addrError addr good bad => exact ⟨le_commonErr_errorCount, commonErr_halted⟩
  | dataError addr good bad useForBadram =>
    rw [ErrorCall.exec, Errors.dataError]
    split
    · exact ⟨Nat.le_refl _, fun h => absurd h Bool.false_ne_true⟩
    · exact ⟨le_commonErr_errorCount, commonErr_halted⟩
  | eccError =>
    have hr : s.errorCount ≤ (reportEcc env s).state.errorCount := le_commonErr_errorCount
    obtain ⟨hcount, hhalted⟩ := errorUpdate_spec env (reportEcc env s).state
    rw [ErrorCall.exec]
    split
    · exact ⟨hr, commonErr_halted⟩
    · rw [hcount]
      exact ⟨hr, hhalted⟩
  | parityError testAddr => exact ⟨le_commonErr_errorCount, commonErr_halted⟩
  | errorUpdate =>
    obtain ⟨hcount, hhalted⟩ := errorUpdate_spec env s
    rw [ErrorCall.exec, hcount]
    exact ⟨Nat.le_refl _, hhalted⟩

end

/-! ### No false verdict -/

namespace VerdictState

/-- A step is a report of an error in data or in an address. The other calls are none: those for a
corrected error or a parity error, and the update of the screen. -/
def IsReport : VerdictInput arch → Prop
  | .call call _ => call.IsReport
  | _ => False

/-- A report counts as long as the tests go on, and the memory passes only if there have been no
reports since the start of the last run that counts. -/
def Sound (cfg : MainConfig) (i : VerdictInput arch) (u : VerdictState arch) : Prop :=
  ∀ u', step cfg i u = some u' →
    (IsReport i → u.halted = false → u'.record.errorCount = countedUp u.record.errorCount) ∧
      (u'.Passed → u'.reports = 0)

/-- A report while the tests go on, with the banner on the screen that there has been an error and
`continue_on_error` off. `common_err` then returns before it counts anything. At the limit of the
count there is nothing left to count, so a report there is none of these. -/
def Unheeded (i : VerdictInput arch) (u : VerdictState arch) : Prop :=
  IsReport i ∧ u.halted = false ∧ u.cpu.point ≠ .finished ∧ u.record.testpass = 2 ∧
    u.continueOnError = false ∧ u.record.errorCount < errorLimit

/-- What holds as long as no report is dropped. -/
structure Inv (u : VerdictState arch) : Prop where
  reports : u.reports ≠ 0 → u.record.errorCount ≠ 0
  halted : u.halted = true → u.record.errorCount ≠ 0
  verdict : u.cpu.point = .finished → u.record.testpass = 1 → u.record.errorCount = 0

variable {cfg : MainConfig} {i : VerdictInput arch} {u u' : VerdictState arch}

theorem Inv.passed (h : Inv u) (hpassed : u.Passed) : u.reports = 0 := by
  have hzero : u.record.errorCount = 0 := by
    obtain ⟨hpoint, htestpass⟩ | hresult := hpassed
    · exact h.verdict hpoint htestpass
    · rw [finalResult] at hresult
      split_ifs at hresult with hpass hcount
      exact hcount
  by_contra hreports
  exact h.reports hreports hzero

/-- The last pass is only finished at the end of a trip. -/
theorem point_ne_finished {inp : Input} {t t' : MainState × CpuState}
    (hpoint : t.2.point ≠ .testDone) (h : Memtest.mainStep cfg inp t = some t') :
    t'.2.point ≠ .finished := by
  obtain ⟨s, l⟩ := t
  rw [Memtest.mainStep, segment] at h
  split at h
  case h_7 hdone => exact absurd hdone hpoint
  case h_8 => exact absurd h (Option.some_ne_none t').symm
  all_goals obtain rfl := Option.some.inj h
  · simp
  · split
    · rw [enterTest]
      split <;> simp
    · simp
  · rw [chooseWindow]
    split_ifs <;> simp
  · rw [setupWindow]
    split_ifs <;> simp
  · have hloop : ∀ s, loopPoint cfg s ≠ .finished := by
      intro s
      rw [loopPoint]
      split <;> simp
    rw [testWindow]
    dsimp only
    split
    · exact hloop _
    · split
      · exact hloop _
      · split
        · exact hloop _
        · split
          · simp
          · exact hloop _
  · simp

/-- A restart takes CPU 0 back to the top of the loop. -/
theorem point_of_restart {inp : Input} {t t' : MainState × CpuState}
    (hpoint : t.2.point = .testDone) (hrestart : (checkInput cfg t.1 inp.menus).restart = true)
    (h : Memtest.mainStep cfg inp t = some t') : t'.2.point = .loopTop := by
  obtain ⟨s, l⟩ := t
  simp only [Memtest.mainStep, segment, show l.point = .testDone from hpoint] at h
  obtain rfl := Option.some.inj h
  have hloop : (epilogue cfg inp s).2 = .loopTop := by
    rw [epilogue]
    exact congrArg Prod.snd (if_pos hrestart)
  exact hloop

/-- The steps of the main loop that end no pass. -/
theorem Inv.mainStep {menus : List (List MenuAction)} {beyond : ℤ} (h : Inv u)
    (hpoint : ∀ noErrors t, Memtest.mainStep cfg ⟨menus, beyond, noErrors⟩ (u.main, u.cpu) =
      some t → t.2.point ≠ .finished)
    (hstep : u.mainStep cfg menus beyond = some u') : Inv u' := by
  obtain ⟨t, ht, rfl⟩ := Option.map_eq_some_iff.mp hstep
  exact ⟨h.reports, h.halted, fun hfinished => absurd hfinished (hpoint _ t ht)⟩

/-- A new run has no reports. -/
theorem Inv.beginRun (h : Inv u) (hhalted : u.halted = false) : Inv u.beginRun := by
  rw [VerdictState.beginRun]
  split
  · exact ⟨fun hne => absurd rfl hne, fun htrue => absurd htrue (by simp [hhalted]),
      fun _ _ => rfl⟩
  · exact h

theorem Inv.endTrip {menus : List (List MenuAction)} {beyond : ℤ} {ctx : CallContext} (h : Inv u)
    (hhalted : u.halted = false) (hpoint : u.cpu.point = .testDone)
    (hstep : u.endTrip cfg menus beyond ctx = some u') : Inv u' := by
  rw [VerdictState.endTrip] at hstep
  dsimp only at hstep
  split at hstep
  · next hrestart =>
    refine h.mainStep (fun noErrors t ht => ?_) hstep
    rw [point_of_restart hpoint hrestart ht]
    exact nofun
  · split at hstep
    · next hstay =>
      obtain rfl := Option.some.inj hstep
      obtain ⟨hcount, herror⟩ := errorUpdate_spec
        ({ u with main := checkInput cfg u.main menus }.env ctx) u.record
      have hpos : (errorUpdate ({ u with main := checkInput cfg u.main menus }.env ctx)
          u.record).state.errorCount ≠ 0 := by
        rw [hcount]
        exact (herror hstay).ne'
      exact ⟨fun _ => hpos, fun _ => hpos,
        fun hfinished => absurd (hpoint.symm.trans hfinished) nofun⟩
    · obtain ⟨v, hv, rfl⟩ := Option.map_eq_some_iff.mp hstep
      obtain ⟨t, ht, rfl⟩ := Option.map_eq_some_iff.mp hv
      have hcount := (errorUpdate_spec
        ({ u with main := checkInput cfg u.main menus }.env ctx) u.record).1
      rw [announce]
      split
      · refine ⟨fun hne => ?_, fun htrue => absurd htrue (by simp [hhalted]), fun _ hpass => ?_⟩
        · dsimp only at hne ⊢
          rw [hcount]
          exact h.reports hne
        · dsimp only at hpass ⊢
          split at hpass
          · next hzero => exact hzero
          · exact absurd hpass (by decide)
      · next hpoint' =>
        refine ⟨fun hne => ?_, fun htrue => absurd htrue (by simp [hhalted]),
          fun hfinished => absurd hfinished hpoint'⟩
        dsimp only
        rw [hcount]
        exact h.reports hne

theorem Inv.trip {menus : List (List MenuAction)} {beyond : ℤ} {ctx : CallContext} (h : Inv u)
    (hstep : u.trip cfg menus beyond ctx = some u') : Inv u' := by
  rw [VerdictState.trip] at hstep
  split at hstep
  · contradiction
  · next hhalted =>
    rw [Bool.not_eq_true] at hhalted
    split at hstep
    · next hpoint =>
      refine (h.beginRun hhalted).mainStep (fun inp t ht => point_ne_finished ?_ ht) hstep
      rw [VerdictState.beginRun]
      split <;> simp [hpoint]
    · next hpoint => exact h.endTrip hhalted hpoint hstep
    · next hnot => exact h.mainStep (fun inp t ht => point_ne_finished hnot ht) hstep

theorem Inv.call {call : ErrorCall arch} {ctx : CallContext} (h : Inv u)
    (hnot : ¬Unheeded (.call call ctx) u) (hpoint : u.cpu.point ≠ .finished) :
    Inv (u.call call ctx) := by
  obtain ⟨hle, hhalted⟩ := ErrorCall.exec_spec (u.env ctx) call u.record
  refine ⟨fun hne => ?_, fun htrue => ?_, fun hfinished => absurd hfinished hpoint⟩
  · by_cases hreport : call.IsReport
    · have hcount : (u.call call ctx).record.errorCount = _ := hreport.errorCount
      rw [hcount]
      split
      · next hdropped =>
        -- the tests do not go on, or there are so many errors that no more are counted
        by_cases hhalted : u.halted = true
        · exact h.halted hhalted
        · intro hzero
          exact hnot ⟨hreport, Bool.not_eq_true _ ▸ hhalted, hpoint, hdropped.1, hdropped.2,
            hzero ▸ by decide⟩
      · exact (countedUp_pos _).ne'
    · have hreports : u.reports ≠ 0 := by
        rw [VerdictState.call] at hne
        dsimp only at hne
        rwa [if_neg hreport] at hne
      have hpos := h.reports hreports
      change (call.exec (u.env ctx) u.record).state.errorCount ≠ 0
      omega
  · obtain htrue | htrue := Bool.or_eq_true_iff.mp htrue
    · have := h.halted htrue
      change (call.exec (u.env ctx) u.record).state.errorCount ≠ 0
      omega
    · exact (hhalted htrue).ne'

theorem Inv.step (h : Inv u) (hnot : ¬Unheeded i u) (hstep : step cfg i u = some u') : Inv u' := by
  cases i with
  | trip menus beyond ctx => exact h.trip hstep
  | call call ctx =>
    rw [VerdictState.step] at hstep
    split at hstep
    · contradiction
    · next hpoint =>
      obtain rfl := Option.some.inj hstep
      exact h.call hnot hpoint
  | setContinueOnError continueOnError =>
    obtain rfl := Option.some.inj hstep
    exact ⟨h.reports, h.halted, h.verdict⟩
  | setErrorMode errorMode =>
    obtain rfl := Option.some.inj hstep
    exact ⟨h.reports, h.halted, h.verdict⟩

/-- **Verdict.** Every report counts and the memory never passes wrongly, in every step of a run,
if and only if no report of the run comes while there is a banner of an error and
`continue_on_error` is off.

A run may restart, change its settings at any time and report errors from any CPU, in any order.
`Sound` is about the step as well as the state: the count grows with each report, and where a PASS
is shown, or could be saved, there has been no report since the start of the run. -/
theorem always_sound_iff (h₀ : u.IsInitial) (inputs : List (VerdictInput arch)) :
    Executions.Always (step cfg) (Sound cfg) inputs u ↔
      Executions.Always (step cfg) (fun i u => ¬Unheeded i u) inputs u := by
  constructor
  · intro hsound before i after v hinputs hv hunheeded
    obtain ⟨hreport, hhalted, hpoint, htestpass, hcontinue, hlimit⟩ := hunheeded
    cases i with
    | call call ctx =>
      have hstep : step cfg (.call call ctx) v = some (v.call call ctx) := if_neg hpoint
      have hcounted := (hsound before _ after v hinputs hv _ hstep).1 hreport hhalted
      have hdropped : Dropped (v.env ctx) v.record := ⟨htestpass, hcontinue⟩
      have hsame : (v.call call ctx).record.errorCount = v.record.errorCount := by
        have hcount : (v.call call ctx).record.errorCount = _ :=
          ErrorCall.IsReport.errorCount hreport
        rw [hcount, if_pos hdropped]
      rw [hsame, countedUp, if_pos hlimit] at hcounted
      omega
    | _ => exact absurd hreport id
  · intro hheeded
    have hinv : Inv u := ⟨fun hne => absurd h₀.reports hne,
      fun htrue => absurd htrue (by simp [h₀.halted]),
      fun hfinished => absurd (h₀.main.point.symm.trans hfinished) nofun⟩
    have hall := hheeded.invariant (fun i s t hnot hI ht => hI.step hnot ht) hinv
    intro before i after v hinputs hv v' hstep
    obtain ⟨hnot, hI⟩ := hall before i after v hinputs hv
    refine ⟨fun hreport hhalted => ?_, (hI.step hnot hstep).passed⟩
    cases i with
    | call call ctx =>
      rw [VerdictState.step] at hstep
      split at hstep
      · contradiction
      · next hpoint =>
        obtain rfl := Option.some.inj hstep
        have hcount : (v.call call ctx).record.errorCount = _ :=
          ErrorCall.IsReport.errorCount hreport
        rw [hcount]
        split
        · next hdropped =>
          have hlimit : ¬v.record.errorCount < errorLimit := fun hlt =>
            hnot ⟨hreport, hhalted, hpoint, hdropped.1, hdropped.2, hlt⟩
          rw [countedUp, if_neg hlimit]
        · rfl
    | _ => exact absurd hreport id

/-- A call on CPU 0 after which `continue_on_error` is as it says. -/
def cpu0Context (continueOnErrorPolled : Bool) : CallContext :=
  ⟨0, continueOnErrorPolled, ⟨0, 0, 0, 0⟩, ⟨fun _ => 0, 0, 0, [], []⟩⟩

/-- The program as it comes to the main loop, with test 4 selected. -/
def oneCpuStart : VerdictState .b64 :=
  ⟨(mainInit (fun n => n = 4) .par).1, (mainInit (fun n => n = 4) .par).2, .initial .b64, false,
    .address, false, 0⟩

theorem isInitial_oneCpuStart : oneCpuStart.IsInitial :=
  ⟨isInitial_mainInit _ _, rfl, rfl, rfl⟩

def quietTrip : VerdictInput .b64 := .trip [] 255 (cpu0Context false)

/-- A bad word at 1 MB. -/
def badWord (continueOnErrorPolled : Bool) : VerdictInput .b64 :=
  .call (.dataError 0x100000 0 1 true) (cpu0Context continueOnErrorPolled)

theorem always_sound_iff_oneCpu :
    oneCpuStart.IsInitial ∧
      (Executions.Always (step oneCpuConfig) (Sound oneCpuConfig)
          (List.replicate 105 quietTrip ++ [badWord true]) oneCpuStart ↔
        Executions.Always (step oneCpuConfig) (fun i u => ¬Unheeded i u)
          (List.replicate 105 quietTrip ++ [badWord true]) oneCpuStart) :=
  ⟨isInitial_oneCpuStart, always_sound_iff isInitial_oneCpuStart _⟩

/-- An error is found with `continue_on_error` on, the user turns it off and has the tests start all
over again. -/
def startOver : List (VerdictInput .b64) :=
  [.setContinueOnError true, badWord true, .call .errorUpdate (cpu0Context true),
    .setContinueOnError false] ++ List.replicate 9 quietTrip ++
      [.trip [[.setTestCycleTimes 1]] 255 (cpu0Context false)]

/-- A bad word in the run after that, and yet the memory passes. -/
theorem not_always_sound_secondRun :
    ¬∀ (cfg : MainConfig) (u : VerdictState .b64) (inputs : List (VerdictInput .b64)),
      u.IsInitial → Executions.Always (step cfg) (Sound cfg) inputs u := by
  intro h
  have hrun : ((Executions.exec (step oneCpuConfig) (List.replicate 105 quietTrip ++ startOver ++
      List.replicate 105 quietTrip ++ [badWord false] ++ List.replicate 30 quietTrip)
      oneCpuStart).bind fun u => (step oneCpuConfig quietTrip u).map fun u =>
        (decide (u.cpu.point = .finished), u.record.testpass, u.reports)) =
      some (true, 1, 1) := by decide +kernel
  obtain ⟨u, hu, hstep⟩ := Option.bind_eq_some_iff.mp hrun
  obtain ⟨u', hstep, heq⟩ := Option.map_eq_some_iff.mp hstep
  obtain ⟨hpoint, htestpass, hreports⟩ :
      decide (u'.cpu.point = .finished) = true ∧ u'.record.testpass = 1 ∧ u'.reports = 1 := by
    simpa only [Prod.mk.injEq] using heq
  have hsound := h oneCpuConfig oneCpuStart _ isInitial_oneCpuStart _ quietTrip [] u rfl hu u' hstep
  have hzero := hsound.2 (.inl ⟨of_decide_eq_true hpoint, htestpass⟩)
  omega

end VerdictState

end Memtest.Errors
