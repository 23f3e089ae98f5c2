import Mathlib.Algebra.Group.Nat.Defs
import Memtest.Badram.Model
import Memtest.Smbios.Dimm
import Memtest.Windows.Vmem

/-!
# Error reports (`app/error.c`)

A test reports an error with the virtual address of the word. `common_err` records it and shows it
in the way the error mode asks for: as part of the summary, as a line of its own, or as an entry of
the pattern table.

Addresses and page numbers are natural numbers, test words are bit vectors. What is on the screen is
given by the values that are printed. The keyboard is polled halfway through a report, and what the
user changes there counts for the rest of the report only where the source reads it again, which is
`continue_on_error`.
-/

namespace Memtest.Errors

/-- `error_type_t`. -/
inductive ErrorType
  | addr
  | data
  | parity
  | uecc
  | cecc
  | newMode
  deriving DecidableEq, Repr

/-- `page_offs_t`. -/
structure PageOffs where
  page : ℕ
  offset : ℕ
  deriving DecidableEq, Repr

/-- `error_info_t`: the lowest and the highest address with an error, the union of the bits in
error and the extremes of their number, the current and the longest run of consecutive addresses,
and the address and the bits of the last error. The counters are natural numbers that
`update_error_info` keeps in range. -/
structure ErrorInfo (arch : Arch) where
  minAddr : PageOffs
  maxAddr : PageOffs
  badBits : BitVec arch.bits
  minBits : ℕ
  maxBits : ℕ
  totalBits : ℕ
  runLength : ℕ
  maxRun : ℕ
  lastAddr : ℕ
  lastXor : BitVec arch.bits
  deriving DecidableEq, Repr

/-- The fields of `ecc_status` that a report reads. -/
structure EccStatus where
  addr : ℕ
  count : ℕ
  core : ℕ
  channel : ℕ
  deriving DecidableEq, Repr

/-- What a report goes by and leaves as it is. -/
structure ErrorEnv where
  errorMode : ErrorMode
  continueOnError : Bool
  /-- `continue_on_error` after the keyboard has been polled. -/
  continueOnErrorPolled : Bool
  myCpu : ℕ
  masterCpu : ℕ
  passNum : ℕ
  testNum : ℕ
  mappedWindow : ℕ
  eccStatus : EccStatus
  smbios : Smbios

/-- What a report may change. `errorInfo` holds the statistics of the summary, `errorCount` and
`testErrors` count the errors that were not corrected, over all tests and for each of them, and
`patterns` is the table of `badram.c`. -/
structure ErrorState (arch : Arch) where
  /-- `testpass`: 1 for pass, 2 for fail. -/
  testpass : ℕ
  lastErrorMode : ErrorMode
  errorInfo : ErrorInfo arch
  errorCount : ℕ
  errorCountCecc : ℕ
  /-- `test_list[].errors`. -/
  testErrors : ℕ → ℕ
  patterns : List Pattern

/-- The last columns of a line in the address mode. With 32 bits a data error has the bits in error
and the error count too. -/
inductive ErrorDetail (arch : Arch)
  | words (good bad : BitVec arch.bits) (more : Option (BitVec arch.bits × ℕ))
  | parity
  | ecc (channel : ℕ)
  deriving DecidableEq, Repr

/-- A line in the address mode, with the name of the line below it if there is one. -/
structure ErrorLine (arch : Arch) where
  cpu : ℕ
  passNum : ℕ
  testNum : ℕ
  page : ℕ
  offset : ℕ
  detail : ErrorDetail arch
  dimmName : Option (List UInt8)
  deriving DecidableEq, Repr

/-- What a report adds to the screen. -/
inductive Shown (arch : Arch)
  | summary (info : ErrorInfo arch) (errorCount : ℕ) (testErrors : ℕ → ℕ)
  | address (line : ErrorLine arch)
  | patterns (table : List Pattern)

/-- A report: the state it leaves, what it shows, and whether the CPU stays in it for good. -/
structure ErrorReport (arch : Arch) where
  state : ErrorState arch
  shown : Option (Shown arch)
  halted : Bool

/-- `ERROR_LIMIT`. -/
def errorLimit : ℕ := 999999999999

/-- `INT_MAX`. -/
def intMax : ℕ := 2 ^ 31 - 1

section

variable {arch : Arch}

/-- The number of bits `update_error_info` counts. -/
def bitsInError (xor : BitVec arch.bits) : ℕ :=
  (List.range arch.bits).countP fun i => xor.getLsbD i

/-- `update_error_info`, with `update_stats`: whether anything that is shown has changed, and the
statistics afterwards. Each field is compared with the value before the call. A run goes on at an
address one word above or below the last one, and only once there has been an error. The sum of
the bits stops growing with the number of errors. -/
def updateErrorInfo (errorCount page offset addr : ℕ) (xor : BitVec arch.bits)
    (info : ErrorInfo arch) : Bool × ErrorInfo arch :=
  let here : PageOffs := ⟨page, offset⟩
  let lower := info.minAddr.page > page ∨
    info.minAddr.page = page ∧ info.minAddr.offset > offset
  let higher := info.maxAddr.page < page ∨
    info.maxAddr.page = page ∧ info.maxAddr.offset < offset
  let bits := bitsInError xor
  -- `addr` is next to the last one, in the arithmetic of `uintptr_t`
  let next := addr = (info.lastAddr + arch.wordBytes) % 2 ^ arch.bits ∨
    addr = (info.lastAddr + 2 ^ arch.bits - arch.wordBytes) % 2 ^ arch.bits
  let runLength := if info.maxRun > 0 ∧ next then (info.runLength + 1) % 2 ^ arch.bits else 1
  (decide (lower ∨ higher ∨ bits > info.maxBits ∨ bits < info.minBits ∨
      info.badBits ^^^ xor ≠ 0 ∨ runLength > info.maxRun),
    { info with
      minAddr := if lower then here else info.minAddr
      maxAddr := if higher then here else info.maxAddr
      badBits := info.badBits ||| xor
      minBits := if bits < info.minBits then bits else info.minBits
      maxBits := if bits > info.maxBits then bits else info.maxBits
      totalBits :=
        if bits > 0 ∧ errorCount < errorLimit then info.totalBits + bits else info.totalBits
      runLength := runLength
      maxRun := if runLength > info.maxRun then runLength else info.maxRun })

/-- What `common_err` counts, unless it is called for a new mode. A corrected error adds the count
of the controller to its own counter, as long as that stays below 999999. Any other one adds 1 to
the number of errors and to the counter of its test, both of which saturate. -/
def countError (env : ErrorEnv) (type : ErrorType) (s : ErrorState arch) : ErrorState arch :=
  if type = .cecc then
    { s with
      errorCountCecc :=
        if s.errorCountCecc + env.eccStatus.count < 999999 then
          s.errorCountCecc + env.eccStatus.count
        else s.errorCountCecc }
  else
    { s with
      errorCount := if s.errorCount < errorLimit then s.errorCount + 1 else s.errorCount
      testErrors := fun n =>
        if n = env.testNum ∧ s.testErrors n < intMax then s.testErrors n + 1
        else s.testErrors n }

/-- The line of `common_err` in the address mode. A parity error has no details and a corrected
error has a channel only. For the others there are the two words, and on 32-bit builds the bits
that differ and the number of errors as well; these also get the name of a module. -/
def errorLine (env : ErrorEnv) (type : ErrorType) (addr errorCount : ℕ)
    (good bad : BitVec arch.bits) : ErrorLine arch where
  cpu := if type ≠ .cecc then env.myCpu else env.eccStatus.core
  passNum := env.passNum
  testNum := env.testNum
  page := pageOf env.mappedWindow addr
  offset := addr % pageSize
  detail :=
    if type = .parity then .parity
    else if type = .cecc then .ecc env.eccStatus.channel
    else .words good bad (if arch = .b32 then some (good ^^^ bad, errorCount) else none)
  dimmName :=
    if type ≠ .parity ∧ type ≠ .cecc then env.smbios.getDimmByAddress addr else none

/-- The `switch` of `common_err` over the error mode, with the error info from before the report.
The summary is shown when a statistic has changed, but not for a parity error, a line unless it
repeats the last one, and the table of patterns when an address was inserted into it. -/
def showError (env : ErrorEnv) (type : ErrorType) (addr : ℕ) (good bad : BitVec arch.bits)
    (newHeader newStats newBadram : Bool) (last : ErrorInfo arch) (s : ErrorState arch) :
    Option (Shown arch) :=
  match env.errorMode with
  | .summary =>
      if type ≠ .parity ∧ newStats = true then
        some (.summary s.errorInfo s.errorCount s.testErrors)
      else none
  | .address =>
      -- skip duplicates
      if newHeader = false ∧ addr = last.lastAddr ∧ good ^^^ bad = last.lastXor then none
      else if type = .newMode then none
      else some (.address (errorLine env type addr s.errorCount good bad))
  | .badram | .memmap | .pages => if newBadram = true then some (.patterns s.patterns) else none
  | .none => none

/-- `common_err`. Once the test has failed and is not to go on, further reports are dropped. The
header is new in front of the first error and when the error mode has changed, and a new header
clears the patterns. Statistics, patterns and counters are updated in this order, then the error
is shown, and only then is its address noted as the last one. When the tests are not to go on
after an error, the master notes the failure and stays in the report for good. -/
def commonErr (env : ErrorEnv) (type : ErrorType) (addr : ℕ) (good bad : BitVec arch.bits)
    (useForBadram : Bool) (s : ErrorState arch) : ErrorReport arch :=
  if s.testpass = 2 ∧ env.continueOnError = false then ⟨s, none, false⟩
  else
    let newHeader : Bool :=
      (s.errorCount = 0 ∧ s.errorCountCecc = 0) ∨ env.errorMode ≠ s.lastErrorMode
    let last := s.errorInfo
    let xor := good ^^^ bad
    let page := pageOf env.mappedWindow addr
    let offset := addr % pageSize
    let info : Bool × ErrorInfo arch :=
      match type with
      | .addr => updateErrorInfo s.errorCount page offset addr 0 s.errorInfo
      | .data => updateErrorInfo s.errorCount page offset addr xor s.errorInfo
      | .newMode => (decide (s.errorCount > 0), s.errorInfo)
      | _ => (false, s.errorInfo)
    let patterns := if newHeader = true then badramInit else s.patterns
    let badram : Bool × List Pattern :=
      if env.errorMode ∈ [.badram, .memmap, .pages] ∧ useForBadram = true then
        badramInsert env.errorMode (.ofNat arch.bits page) (.ofNat arch.bits offset) patterns
      else (false, patterns)
    let s : ErrorState arch :=
      { s with lastErrorMode := env.errorMode, errorInfo := info.2, patterns := badram.2 }
    let s := if type = .newMode then s else countError env type s
    let shown := showError env type addr good bad newHeader info.1 badram.1 last s
    let s : ErrorState arch :=
      if type ≠ .parity ∧ type ≠ .cecc then
        { s with errorInfo := { s.errorInfo with lastAddr := addr, lastXor := xor } }
      else s
    if env.continueOnErrorPolled = false ∧ s.errorCount > 0 ∧ env.myCpu = env.masterCpu then
      ⟨{ s with testpass := 2 }, shown, true⟩
    else ⟨s, shown, false⟩

/-- `addr_error`. -/
def addrError (env : ErrorEnv) (addr : ℕ) (good bad : BitVec arch.bits) (s : ErrorState arch) :
    ErrorReport arch :=
  commonErr env .addr addr good bad false s

/-- `data_error`, with the workaround for USB keyboards. -/
def dataError (env : ErrorEnv) (addr : ℕ) (good bad : BitVec arch.bits) (useForBadram : Bool)
    (s : ErrorState arch) : ErrorReport arch :=
  if addr = 0x4e0 ∨ addr = 0x410 then ⟨s, none, false⟩
  else commonErr env .data addr good bad useForBadram s

end

end Memtest.Errors
