import Memtest.Errors.Report

/-!
# The calls of `app/error.c` over a run

Tests report errors and the main loop updates what is shown of them, in any order. A call may hold
the CPU in a loop for good, with the banner of the result on the screen.

A new run resets the error record in three functions: `display_start_run` of `app/display.c`,
`badram_init` of `app/badram.c` and `error_init`.
-/

namespace Memtest.Errors

variable {arch : Arch}

/-! ### The other functions -/

/-- The error record before the program has done anything. -/
def ErrorState.initial (arch : Arch) : ErrorState arch where
  testpass := 0
  lastErrorMode := .none
  errorInfo := ⟨⟨0, 0⟩, ⟨0, 0⟩, 0, 0, 0, 0, 0, 0, 0, 0⟩
  errorCount := 0
  errorCountCecc := 0
  testErrors := fun _ => 0
  patterns := []

/-- `error_init`: the minima start at the largest values and the maxima at the smallest ones, the
other statistics at 0, and the number of errors is 0 as well. The counts for each test, the number
of corrected errors, the verdict and the last error mode are not touched. -/
def errorInit (s : ErrorState arch) : ErrorState arch :=
  { s with
    errorInfo :=
      { minAddr := ⟨2 ^ arch.bits - 1, pageSize - 1⟩
        maxAddr := ⟨0, 0⟩
        badBits := 0
        minBits := 255
        maxBits := 0
        totalBits := 0
        runLength := 0
        maxRun := 0
        lastAddr := 0
        lastXor := 0 }
    errorCount := 0 }

/-- `display_start_run`, as far as it changes the error record. -/
def displayStartRun (s : ErrorState arch) : ErrorState arch := { s with errorCount := 0 }

/-- The calls under `if (!dummy_run)` with which a run starts. -/
def startRun (s : ErrorState arch) : ErrorState arch :=
  errorInit { displayStartRun s with patterns := badramInit }

/-- The call of `common_err` for a new mode, in which the keyboard is not polled. -/
def reportNewMode (env : ErrorEnv) (s : ErrorState arch) : ErrorReport arch :=
  commonErr { env with continueOnErrorPolled := env.continueOnError } .newMode 0 0 0 false s

/-- `error_update`, as far as it changes the error record, shows an error or stays for good. -/
def errorUpdate (env : ErrorEnv) (s : ErrorState arch) : ErrorReport arch :=
  if s.errorCount > 0 ∨ s.errorCountCecc > 0 then
    let r := if env.errorMode ≠ s.lastErrorMode then reportNewMode env s else ⟨s, none, false⟩
    -- only fail if the error is uncorrected
    if r.halted = false ∧ r.state.errorCount > 0 ∧ r.state.testpass ≠ 2 then
      ⟨{ r.state with testpass := 2 }, r.shown, !env.continueOnError⟩
    else r
  else ⟨s, none, false⟩

/-! ### Calls -/

/-- The calls from outside that an error record goes through. `testAddr` is what the CPU has left in
`test_addr`. -/
inductive ErrorCall (arch : Arch)
  | addrError (addr : ℕ) (good bad : BitVec arch.bits)
  | dataError (addr : ℕ) (good bad : BitVec arch.bits) (useForBadram : Bool)
  | eccError
  | parityError (testAddr : ℕ)
  | errorUpdate

/-- A call, with what it goes by. -/
abbrev CallInput (arch : Arch) := ErrorEnv × ErrorCall arch

/-- `parity_error`. -/
def parityError (env : ErrorEnv) (testAddr : ℕ) (s : ErrorState arch) : ErrorReport arch :=
  commonErr env .parity testAddr 0 0 false s

/-- The first half of `ecc_error`. -/
def reportEcc (env : ErrorEnv) (s : ErrorState arch) : ErrorReport arch :=
  commonErr env .cecc env.eccStatus.addr 0 0 false s

/-- What a call makes of the error record. -/
def ErrorCall.exec (env : ErrorEnv) : ErrorCall arch → ErrorState arch → ErrorReport arch
  | .addrError addr good bad, s => Errors.addrError env addr good bad s
  | .dataError addr good bad useForBadram, s => Errors.dataError env addr good bad useForBadram s
  | .eccError, s =>
      let r := reportEcc env s
      if r.halted then r else Errors.errorUpdate env r.state
  | .parityError testAddr, s => Errors.parityError env testAddr s
  | .errorUpdate, s => Errors.errorUpdate env s

/-! ### One report -/

/-- `new_header`. -/
def newHeader (env : ErrorEnv) (s : ErrorState arch) : Bool :=
  (s.errorCount = 0 ∧ s.errorCountCecc = 0) ∨ env.errorMode ≠ s.lastErrorMode

/-- `common_err` returns at once. -/
def Dropped (env : ErrorEnv) (s : ErrorState arch) : Prop :=
  s.testpass = 2 ∧ env.continueOnError = false

instance (env : ErrorEnv) (s : ErrorState arch) : Decidable (Dropped env s) :=
  inferInstanceAs (Decidable (_ ∧ _))

/-- The statistics `common_err` keeps of an error, and whether they have changed. An address error
has no bits in error and a data error has the ones in `xor`; the other kinds of error leave the
statistics alone. A call for a new mode only asks for them to be shown, if there has been an
error. -/
def noteInfo (env : ErrorEnv) (type : ErrorType) (addr : ℕ) (xor : BitVec arch.bits)
    (s : ErrorState arch) : Bool × ErrorInfo arch :=
  match type with
  | .addr => updateErrorInfo s.errorCount (pageOf env.mappedWindow addr) (addr % pageSize) addr 0
      s.errorInfo
  | .data => updateErrorInfo s.errorCount (pageOf env.mappedWindow addr) (addr % pageSize) addr xor
      s.errorInfo
  | .newMode => (decide (s.errorCount > 0), s.errorInfo)
  | _ => (false, s.errorInfo)

/-- The entry `common_err` makes in the pattern table. -/
def notePattern (arch : Arch) (env : ErrorEnv) (addr : ℕ) (useForBadram newHeader : Bool)
    (patterns : List Pattern) : Bool × List Pattern :=
  let patterns := if newHeader = true then badramInit else patterns
  if env.errorMode ∈ [.badram, .memmap, .pages] ∧ useForBadram = true then
    badramInsert env.errorMode (.ofNat arch.bits (pageOf env.mappedWindow addr))
      (.ofNat arch.bits (addr % pageSize)) patterns
  else (false, patterns)

/-- What `common_err` shows of an error it takes note of, and the error record it leaves, but for
the verdict. -/
def takeNote (env : ErrorEnv) (type : ErrorType) (addr : ℕ) (good bad : BitVec arch.bits)
    (useForBadram newHeader : Bool) (s : ErrorState arch) :
    Option (Shown arch) × ErrorState arch :=
  let info := noteInfo env type addr (good ^^^ bad) s
  let badram := notePattern arch env addr useForBadram newHeader s.patterns
  let t : ErrorState arch :=
    { s with lastErrorMode := env.errorMode, errorInfo := info.2, patterns := badram.2 }
  let t := if type = .newMode then t else countError env type t
  (showError env type addr good bad newHeader info.1 badram.1 s.errorInfo t,
    if type ≠ .parity ∧ type ≠ .cecc then
      { t with errorInfo := { t.errorInfo with lastAddr := addr, lastXor := good ^^^ bad } }
    else t)

/-- `common_err` in three parts: it drops the report, or takes note of it and then may stay for
good. -/
theorem commonErr_eq (env : ErrorEnv) (type : ErrorType) (addr : ℕ) (good bad : BitVec arch.bits)
    (useForBadram : Bool) (s : ErrorState arch) :
    commonErr env type addr good bad useForBadram s =
      if Dropped env s then ⟨s, none, false⟩
      else
        let r := takeNote env type addr good bad useForBadram (newHeader env s) s
        if env.continueOnErrorPolled = false ∧ r.2.errorCount > 0 ∧ env.myCpu = env.masterCpu then
          ⟨{ r.2 with testpass := 2 }, r.1, true⟩
        else ⟨r.2, r.1, false⟩ := by
  cases type <;> rfl

section

variable {env : ErrorEnv} {type : ErrorType} {addr : ℕ} {good bad : BitVec arch.bits}
  {useForBadram b : Bool} {s : ErrorState arch}

theorem commonErr_of_dropped (h : Dropped env s) :
    commonErr env type addr good bad useForBadram s = ⟨s, none, false⟩ := by
  rw [commonErr_eq, if_pos h]

@[simp] theorem countError_testpass : (countError env type s).testpass = s.testpass := by
  rw [countError]
  split <;> rfl

@[simp] theorem takeNote_testpass :
    (takeNote env type addr good bad useForBadram b s).2.testpass = s.testpass := by
  cases type <;> rfl

@[simp] theorem takeNote_lastErrorMode :
    (takeNote env type addr good bad useForBadram b s).2.lastErrorMode = env.errorMode := by
  cases type <;> rfl

/-- Every error that is not corrected counts, up to the limit. -/
theorem takeNote_errorCount (htype : type ≠ .newMode) (hcecc : type ≠ .cecc) :
    (takeNote env type addr good bad useForBadram b s).2.errorCount =
      if s.errorCount < errorLimit then s.errorCount + 1 else s.errorCount := by
  cases type with
  | newMode => exact absurd rfl htype
  | cecc => exact absurd rfl hcecc
  | _ => rfl

/-- A report for a new mode or of a corrected error does not count. -/
theorem takeNote_errorCount_of_corrected (htype : type = .newMode ∨ type = .cecc) :
    (takeNote env type addr good bad useForBadram b s).2.errorCount = s.errorCount := by
  obtain rfl | rfl := htype <;> rfl

end

/-- What is noted does not depend on the verdict and the last error mode, other than through the
header. -/
theorem takeNote_update (env : ErrorEnv) (type : ErrorType) (addr : ℕ) (good bad : BitVec arch.bits)
    (useForBadram b : Bool) (s : ErrorState arch) (testpass : ℕ) (lastErrorMode : ErrorMode) :
    takeNote env type addr good bad useForBadram b
        { s with testpass := testpass, lastErrorMode := lastErrorMode } =
      ((takeNote env type addr good bad useForBadram b s).1,
        { (takeNote env type addr good bad useForBadram b s).2 with testpass := testpass }) := by
  cases type <;> rfl

/-! ### What can be seen of a call -/

/-- The counters and the statistics. -/
structure Statistics (arch : Arch) where
  errorCount : ℕ
  errorCountCecc : ℕ
  testErrors : ℕ → ℕ
  errorInfo : ErrorInfo arch

def ErrorState.statistics (s : ErrorState arch) : Statistics arch :=
  ⟨s.errorCount, s.errorCountCecc, s.testErrors, s.errorInfo⟩

/-- What can be seen of a call of `common_err` that finds the state `s` and comes to the result `r`:
whether it takes note of the error at all, and then whether it begins a new header and what it adds
to the screen. -/
def seen (env : ErrorEnv) (s : ErrorState arch) (r : ErrorReport arch) :
    List (Bool × Option (Shown arch)) :=
  if Dropped env s then [] else [(newHeader env s, r.shown)]

/-- What can be seen of `error_update`: it may call `common_err` for a new mode. -/
def seenUpdate (env : ErrorEnv) (s : ErrorState arch) : List (Bool × Option (Shown arch)) :=
  if (s.errorCount > 0 ∨ s.errorCountCecc > 0) ∧ env.errorMode ≠ s.lastErrorMode then
    seen env s (reportNewMode env s)
  else []

/-- What can be seen of a call: whether the program stops, and what is shown. `data_error` says
nothing about two addresses that the BIOS uses. After `ecc_error` the display is only updated when
the report has not stopped the program. -/
def ErrorCall.seen (env : ErrorEnv) (call : ErrorCall arch) (s : ErrorState arch) :
    List (Bool × Option (Shown arch)) :=
  match call with
  | .dataError addr _ _ _ =>
      if addr = 0x4e0 ∨ addr = 0x410 then [] else Errors.seen env s (call.exec env s)
  | .eccError =>
      let r := reportEcc env s
      Errors.seen env s r ++ if r.halted then [] else seenUpdate env r.state
  | .errorUpdate => seenUpdate env s
  | _ => Errors.seen env s (call.exec env s)

end Memtest.Errors
