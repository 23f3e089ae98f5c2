import Memtest.Errors.Calls
import Memtest.Lib.Mealy

/-!
# What a new run keeps of the one before

Of the error record, a new run resets the error count, the statistics and the pattern table. It
keeps the count of corrected errors, the errors of each test, the error mode of the last report and
the verdict, and all of these can be seen in what is reported later on.
-/

namespace Memtest.Errors

open Mealy

variable {arch : Arch}

/-- What can be seen of a call: its reports, whether it stays for good, and the counters and the
statistics it leaves. -/
structure Outcome (arch : Arch) where
  reports : List (Bool × Option (Shown arch))
  halted : Bool
  statistics : Statistics arch

/-- The error record as a machine. -/
def callStep (i : CallInput arch) (s : ErrorState arch) : ErrorState arch × Outcome arch :=
  ((i.2.exec i.1 s).state,
    ⟨i.2.seen i.1 s, (i.2.exec i.1 s).halted, (i.2.exec i.1 s).state.statistics⟩)

/-- The error record a history of calls leaves, from the start of the first run on. A history is
any list of calls, of whatever kinds, each with the settings and the CPU it was made with. -/
def recordAfter (history : List (CallInput arch)) : ErrorState arch :=
  run callStep history (startRun (.initial arch))

/-- After a new run has started, nothing tells which of the two histories there has been: whatever
calls follow, the lines, the counts and the verdict on the screen are the same. -/
def ForgetsPast (history history' : List (CallInput arch)) : Prop :=
  Indist callStep (startRun (recordAfter history)) (startRun (recordAfter history'))

/-- What a new run keeps is the same in two error records. The last error mode does not matter as
long as no corrected error has been counted: it only decides whether a later report begins with a
new header. Of `testpass` only the value 2 matters, which makes later reports be dropped. -/
structure SameRest (s t : ErrorState arch) : Prop where
  errorCountCecc : s.errorCountCecc = t.errorCountCecc
  testErrors : s.testErrors = t.testErrors
  testpass : s.testpass = 2 ↔ t.testpass = 2
  lastErrorMode : s.errorCountCecc = 0 ∨ s.lastErrorMode = t.lastErrorMode

/-! ### Calls on two error records -/

/-- Two error records that differ in the verdict and the last error mode at most, and in these only
where it does not matter. -/
structure Alike (s t : ErrorState arch) : Prop where
  eq : t = { s with testpass := t.testpass, lastErrorMode := t.lastErrorMode }
  testpass : s.testpass = 2 ↔ t.testpass = 2
  lastErrorMode : (s.errorCount = 0 ∧ s.errorCountCecc = 0) ∨ s.lastErrorMode = t.lastErrorMode

/-- Two reports that leave records alike and show the same. -/
structure AlikeReports (r r' : ErrorReport arch) : Prop where
  state : Alike r.state r'.state
  shown : r.shown = r'.shown
  halted : r.halted = r'.halted

variable {env : ErrorEnv} {s t : ErrorState arch}

theorem Alike.statistics_eq (h : Alike s t) : s.statistics = t.statistics := by
  rw [h.eq]
  rfl

theorem Alike.newHeader_eq (h : Alike s t) : newHeader env s = newHeader env t := by
  have hcount : t.errorCount = s.errorCount := by rw [h.eq]
  have hcecc : t.errorCountCecc = s.errorCountCecc := by rw [h.eq]
  rw [newHeader, newHeader, hcount, hcecc]
  obtain hnone | hmode := h.lastErrorMode
  · simp [hnone]
  · rw [hmode]

theorem Alike.dropped_iff (h : Alike s t) : Dropped env s ↔ Dropped env t :=
  and_congr_left' h.testpass

/-- Apart from returning at once, `common_err` reads the verdict and the last error mode only to see
whether it begins a new header. -/
theorem Alike.commonErr (h : Alike s t) (env : ErrorEnv) (type : ErrorType) (addr : ℕ)
    (good bad : BitVec arch.bits) (useForBadram : Bool) :
    AlikeReports (commonErr env type addr good bad useForBadram s)
      (commonErr env type addr good bad useForBadram t) := by
  rw [commonErr_eq, commonErr_eq]
  by_cases hs : Dropped env s
  · rw [if_pos hs, if_pos (h.dropped_iff.mp hs)]
    exact ⟨h, rfl, rfl⟩
  · have hnote := takeNote_update env type addr good bad useForBadram (newHeader env s) s t.testpass
      t.lastErrorMode
    rw [← h.eq] at hnote
    rw [if_neg hs, if_neg (mt h.dropped_iff.mpr hs), ← h.newHeader_eq, hnote]
    dsimp only
    split
    · exact ⟨⟨rfl, Iff.rfl, .inr rfl⟩, rfl, rfl⟩
    · exact ⟨⟨rfl, by rw [takeNote_testpass]; exact h.testpass, .inr rfl⟩, rfl, rfl⟩

theorem Alike.of_testpass (h : Alike s t) (n : ℕ) :
    Alike { s with testpass := n } { t with testpass := n } :=
  ⟨by rw [h.eq], Iff.rfl, h.lastErrorMode⟩

theorem Alike.seen_eq (h : Alike s t) {r r' : ErrorReport arch} (hr : AlikeReports r r') :
    seen env s r = seen env t r' := by
  rw [seen, seen, h.newHeader_eq, hr.shown]
  exact if_congr h.dropped_iff rfl rfl

/-- `error_update` compares the error mode with the last one only if there is an error. -/
theorem Alike.errorUpdate (h : Alike s t) (env : ErrorEnv) :
    AlikeReports (errorUpdate env s) (errorUpdate env t) ∧ seenUpdate env s = seenUpdate env t := by
  have hcount : t.errorCount = s.errorCount := by rw [h.eq]
  have hcecc : t.errorCountCecc = s.errorCountCecc := by rw [h.eq]
  rw [Errors.errorUpdate, Errors.errorUpdate, seenUpdate, seenUpdate, hcount, hcecc]
  by_cases herror : s.errorCount > 0 ∨ s.errorCountCecc > 0
  · have hmode : s.lastErrorMode = t.lastErrorMode := h.lastErrorMode.resolve_left (by omega)
    have hnew : AlikeReports (reportNewMode env s) (reportNewMode env t) := h.commonErr _ _ _ _ _ _
    rw [if_pos herror, if_pos herror, ← hmode]
    refine ⟨?_, if_congr Iff.rfl ?_ rfl⟩
    · -- the report for a new mode, or none
      have hr : AlikeReports
          (if env.errorMode ≠ s.lastErrorMode then reportNewMode env s else ⟨s, none, false⟩)
          (if env.errorMode ≠ s.lastErrorMode then reportNewMode env t else ⟨t, none, false⟩) := by
        split
        · exact hnew
        · exact ⟨h, rfl, rfl⟩
      generalize (if env.errorMode ≠ s.lastErrorMode then reportNewMode env s
        else ⟨s, none, false⟩) = r at hr ⊢
      generalize (if env.errorMode ≠ s.lastErrorMode then reportNewMode env t
        else ⟨t, none, false⟩) = r' at hr ⊢
      have hcount' : r'.state.errorCount = r.state.errorCount := by rw [hr.state.eq]
      have hfail : (r.halted = false ∧ r.state.errorCount > 0 ∧ r.state.testpass ≠ 2) ↔
          (r'.halted = false ∧ r'.state.errorCount > 0 ∧ r'.state.testpass ≠ 2) := by
        rw [hr.halted, hcount']
        exact and_congr_right' (and_congr_right' (not_congr hr.state.testpass))
      by_cases hr' : r.halted = false ∧ r.state.errorCount > 0 ∧ r.state.testpass ≠ 2
      · rw [if_pos hr', if_pos (hfail.mp hr')]
        exact ⟨hr.state.of_testpass 2, hr.shown, rfl⟩
      · rw [if_neg hr', if_neg (mt hfail.mpr hr')]
        exact hr
    · exact h.seen_eq hnew
  · rw [if_neg herror, if_neg herror, if_neg fun hand => herror hand.1,
      if_neg fun hand => herror hand.1]
    exact ⟨⟨h, rfl, rfl⟩, rfl⟩

/-- A call makes two error records that are alike into two that are alike again, and nothing can be
seen of the difference. -/
theorem Alike.call (h : Alike s t) (i : CallInput arch) :
    (callStep i s).2 = (callStep i t).2 ∧ Alike (callStep i s).1 (callStep i t).1 := by
  obtain ⟨env, call⟩ := i
  have hall : AlikeReports (call.exec env s) (call.exec env t) ∧
      call.seen env s = call.seen env t := by
    cases call with
    | addrError addr good bad =>
      have hr := h.commonErr env .addr addr good bad false
      exact ⟨hr, h.seen_eq hr⟩
    | dataError addr good bad useForBadram =>
      have hr := h.commonErr env .data addr good bad useForBadram
      simp only [ErrorCall.exec, ErrorCall.seen, dataError]
      split
      · exact ⟨⟨h, rfl, rfl⟩, rfl⟩
      · exact ⟨hr, h.seen_eq hr⟩
    | eccError =>
      have hr : AlikeReports (reportEcc env s) (reportEcc env t) := h.commonErr env .cecc _ _ _ _
      have hnext := hr.state.errorUpdate env
      simp only [ErrorCall.exec, ErrorCall.seen, ← hr.halted, h.seen_eq hr, hnext.2]
      split
      · exact ⟨hr, trivial⟩
      · exact ⟨hnext.1, trivial⟩
    | parityError testAddr =>
      have hr := h.commonErr env .parity testAddr 0 0 false
      exact ⟨hr, h.seen_eq hr⟩
    | errorUpdate => exact h.errorUpdate env
  obtain ⟨hr, hseen⟩ := hall
  refine ⟨?_, hr.state⟩
  rw [callStep, callStep]
  dsimp only
  rw [hseen, hr.halted, hr.state.statistics_eq]

/-! ### A new run -/

/-- A new run makes error records alike in which what it keeps is the same. -/
theorem alike_startRun (h : SameRest s t) : Alike (startRun s) (startRun t) where
  eq := by
    simp only [startRun, errorInit, displayStartRun, h.errorCountCecc, h.testErrors]
  testpass := h.testpass
  lastErrorMode := h.lastErrorMode.imp (fun hzero => ⟨rfl, hzero⟩) id

/-- What `common_err` goes by in a probe. -/
def probeEnv (errorMode : ErrorMode) (continueOnError : Bool) : ErrorEnv where
  errorMode := errorMode
  continueOnError := continueOnError
  continueOnErrorPolled := continueOnError
  myCpu := 0
  masterCpu := 0
  passNum := 0
  testNum := 0
  mappedWindow := 0
  eccStatus := ⟨0, 0, 0, 0⟩
  smbios := ⟨fun _ => 0, 0, 0, [], []⟩

/-- What a new run keeps can be seen in the reports of it. -/
theorem sameRest_of_indist (h : Indist callStep (startRun s) (startRun t)) : SameRest s t := by
  -- a report the workaround ignores shows the counters
  have hcounters : (startRun s).statistics = (startRun t).statistics := congrArg Outcome.statistics
    (h.output_eq (probeEnv .none true, .dataError 0x410 0 0 false))
  have hcecc : s.errorCountCecc = t.errorCountCecc := congrArg Statistics.errorCountCecc hcounters
  have hreport : ∀ errorMode continueOnError, seen (probeEnv errorMode continueOnError) (startRun s)
      (addrError (probeEnv errorMode continueOnError) 0 0 0 (startRun s)) =
        seen (probeEnv errorMode continueOnError) (startRun t)
          (addrError (probeEnv errorMode continueOnError) 0 0 0 (startRun t)) :=
    fun errorMode continueOnError => congrArg Outcome.reports
      (h.output_eq (probeEnv errorMode continueOnError, .addrError 0 0 0))
  refine ⟨hcecc, congrArg Statistics.testErrors hcounters, ?_, ?_⟩
  · -- a report is dropped after one history and not after the other
    have hdrop := congrArg List.length (hreport .none false)
    by_cases hs : s.testpass = 2 <;> by_cases ht : t.testpass = 2 <;>
      simp_all [seen, Dropped, startRun, errorInit, displayStartRun, probeEnv]
  · -- a report in the mode of the last one begins a new header or does not
    by_contra hmodes
    obtain ⟨hpos, hne⟩ := not_or.mp hmodes
    have hheader := hreport s.lastErrorMode true
    have hpos' : t.errorCountCecc ≠ 0 := hcecc ▸ hpos
    simp [seen, Dropped, startRun, errorInit, displayStartRun, probeEnv, newHeader, hpos, hpos',
      hne] at hheader

/-- **Restart.** A new run makes no difference between two histories if and only if they leave the
same corrected errors, the same errors of each test and the same verdict, and the same last error
mode unless there are no corrected errors.

A restart that forgets the past would make no difference between any two histories. Here the
histories that can be told apart are exactly those that differ in what `error_init` does not
reset. -/
theorem forgetsPast_iff (history history' : List (CallInput arch)) :
    ForgetsPast history history' ↔ SameRest (recordAfter history) (recordAfter history') :=
  ⟨sameRest_of_indist, fun h => Indist.of_bisim (fun i _ _ h => h.call i) (alike_startRun h)⟩

/-- A data error in test 4 that does not stop the test. -/
def oneDataError : CallInput .b64 :=
  ({ probeEnv .summary true with testNum := 4 }, .dataError 0x200000 0 1 true)

/-- After a data error in the run before, the new run shows an error for test 4 from the start. -/
theorem not_forgetsPast_oneDataError :
    ¬∀ history history' : List (CallInput .b64), ForgetsPast history history' := by
  intro h
  have herrors := congrFun (sameRest_of_indist (h [] [oneDataError])).testErrors 4
  revert herrors
  decide

end Memtest.Errors
