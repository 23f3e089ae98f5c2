import Memtest.Report.Texts

/-!
# The lines of the serial log (`app/reports.c`)

A line is an event and what is formatted behind it, which has a text whatever the data is.
-/

namespace Memtest

variable {arch : Arch}

/-- A line that is made by `slog_begin`, calls of `buf_printf`, and `slog_end`. -/
structure LogLine where
  event : List Char
  body : Formatter Unit
  hasText : HasText body

/-- The line that is made by `slog`. -/
def slogLine (event fmt : String) (args : List (FormatArg arch)) (kinds : List ArgKind)
    (hkinds : args.map FormatArg.kind = kinds) (hok : formatOk fmt.toList kinds = true) :
    LogLine where
  event := event.toList
  body := bufPrintf fmt args
  hasText := hasText_bufPrintf kinds hkinds hok

/-- The line of `serial_log_start`, with `GIT_HASH` and `SLOG_ARCH`, which are part of the
format. -/
def serialLogStart (gitHash slogArch : String)
    (hok : formatOk (" version=1.51." ++ gitHash ++ " arch=" ++ slogArch).toList [] = true) :
    LogLine :=
  slogLine "start" (" version=1.51." ++ gitHash ++ " arch=" ++ slogArch)
    ([] : List (FormatArg arch)) [] rfl hok

section

variable (d : ReportData arch)

/-- The line for the clock. -/
def rtcLine (arch : Arch) (rtcRead : ℕ → BitVec 8) : LogLine :=
  let t := rtcGetDatetime rtcRead
  slogLine "info" " rtc=\"%04i-%02i-%02i %02i:%02i:%02i\""
    [(.int t.year : FormatArg arch), .int t.mon, .int t.day, .int t.hour, .int t.min, .int t.sec]
    [.int, .int, .int, .int, .int, .int] rfl (formatOk_toList rfl rfl)

/-- The line for the board. -/
def boardLine : List LogLine :=
  match d.boardMfg, d.boardProd with
  | some mfg, some prod =>
      [slogLine "info" " board=\"%s %s\"" [(.str mfg : FormatArg arch), .str prod] [.str, .str] rfl
        (formatOk_toList rfl rfl)]
  | _, _ => []

/-- A line for a string, where there is one. -/
def stringLine (arch : Arch) (fmt : String) (hok : formatOk fmt.toList [.str] = true) :
    Option (List Char) → List LogLine
  | none => []
  | some s => [slogLine "info" fmt [(.str s : FormatArg arch)] [.str] rfl hok]

/-- The line for the memory controller, or else for the memory. -/
def ramLine : List LogLine :=
  let imc := d.imc
  let ram := d.ram
  if imc.freq ≠ 0 then
    [slogLine "info" " imc=%s-%u cas=%u%s-%u-%u-%u"
      [(.str imc.type : FormatArg arch), uintArg imc.freq, uintArg imc.tCL, .str (tCLDecText imc),
        uintArg imc.tRCD, uintArg imc.tRP, uintArg imc.tRAS]
      [.str, .uint, .uint, .str, .uint, .uint, .uint] rfl (formatOk_toList rfl rfl)]
  else if 0 < ram.freq ∧ 0 < ram.tCL then
    [slogLine "info" " ram=%s-%u cas=%u%s-%u-%u-%u"
      [(.str ram.type : FormatArg arch), uintArg ram.freq, uintArg ram.tCL, .str (tCLDecText ram),
        uintArg ram.tRCD, uintArg ram.tRP, uintArg ram.tRAS]
      [.str, .uint, .uint, .str, .uint, .uint, .uint] rfl (formatOk_toList rfl rfl)]
  else []

/-- The line for a memory module. -/
def spdLine (spdi : SpdInfo) : LogLine where
  event := "spd".toList
  body := do
    bufPrintf " slot=%i size_mb=%u type=%s freq=%u ecc=%i"
      [(.int (spdi.slotNum.setWidth 32) : FormatArg arch), uintArg spdi.moduleSize, .str spdi.type,
        uintArg spdi.freq, .int (if spdi.hasECC then 1 else 0)]
    formatMaker d " mfg=\"%s\"" " mfg_id=0x%x" spdi
    formatSku arch " sku=\"%s\"" spdi.sku
  hasText := by
    refine (hasText_bufPrintf [.int, .uint, .str, .uint, .int] rfl
      (formatOk_toList rfl rfl)).bind ?_
    refine (hasText_formatMaker d (formatOk_toList rfl rfl) (formatOk_toList rfl rfl) spdi).bind ?_
    exact hasText_formatSku (formatOk_toList rfl rfl) spdi.sku

/-- The lines of `serial_log_run_start`. -/
def serialLogRunStart : List LogLine :=
  (match d.rtc with
    | some rtcRead => [rtcLine arch rtcRead]
    | none => []) ++
  stringLine arch " cpu=\"%s\"" (formatOk_toList rfl rfl) d.cpuModel ++ boardLine d ++
  stringLine arch " sys_serial=\"%s\"" (formatOk_toList rfl rfl) d.systemSerial ++
  stringLine arch " board_serial=\"%s\"" (formatOk_toList rfl rfl) d.baseboardSerial ++
  [slogLine "info" " mem_mb=%u" [(.uint (d.numPmPages / 256) : FormatArg arch)] [.uint] rfl
    (formatOk_toList rfl rfl)] ++
  ramLine d ++ (d.spdSlotCache.filter (·.isValid)).map (spdLine d)

/-- The status in a line. -/
def statusText : List Char := if d.errorCount = 0 then "pass".toList else "fail".toList

/-- The lines of `serial_log_event` for `SLOG_PASS_START`. -/
def passStartLine : LogLine :=
  slogLine "pass_start" " pass=%i" [(.int d.passNum : FormatArg arch)] [.int] rfl
    (formatOk_toList rfl rfl)

/-- The lines of `serial_log_event` for `SLOG_PASS_END`. -/
def passEndLines (logMaxPasses : BitVec 32) : List LogLine :=
  slogLine "pass_end" " pass=%i errors=%u status=%s"
    [(.int d.passNum : FormatArg arch), uintArg d.errorCount, .str (statusText d)]
    [.int, .uint, .str] rfl (formatOk_toList rfl rfl) ::
  if (0 : BitVec 32).slt logMaxPasses ∧ logMaxPasses.sle (d.passNum + 1) then
    [slogLine "done" " passes=%i status=%s"
      [(.int (d.passNum + 1) : FormatArg arch), .str (statusText d)] [.int, .str] rfl
      (formatOk_toList rfl rfl)]
  else []

/-- The line of `serial_log_event` for `SLOG_TEST_START`. -/
def testStartLine (test : TestReport × ℕ) : LogLine :=
  slogLine "test_start" " test=%i name=\"%s\""
    [(.int (BitVec.ofNat 32 test.2) : FormatArg arch), .str (testDescText test.1.description)]
    [.int, .str] rfl (formatOk_toList rfl rfl)

/-- The line of `serial_log_event` for `SLOG_TEST_END`. -/
def testEndLine (test : TestReport × ℕ) : LogLine :=
  slogLine "test_end" " test=%i errors=%i"
    [(.int (BitVec.ofNat 32 test.2) : FormatArg arch), .int test.1.errors] [.int, .int] rfl
    (formatOk_toList rfl rfl)

/-- `slog_pct`. -/
def slogPct (ticks total : BitVec 32) : BitVec 32 :=
  if total.sle 0 then 0
  else if (100 : BitVec 32).slt ((100 * ticks).sdiv total) then 100
  else (100 * ticks).sdiv total

/-- The line of `serial_log_tick`, with the ticks so far and the ones there are to be. -/
def tickLine (testNum passTicks passTotal testTicks testTotal : BitVec 32) : LogLine :=
  slogLine "tick" " pass=%i pass_pct=%i test=%i test_pct=%i errors=%u"
    [(.int d.passNum : FormatArg arch), .int (slogPct passTicks passTotal), .int testNum,
      .int (slogPct testTicks testTotal), uintArg d.errorCount]
    [.int, .int, .int, .int, .uint] rfl (formatOk_toList rfl rfl)

end

/-- The line of `serial_log_error`. -/
def errorLine (type : List Char) (testNum cpuNum : BitVec 32)
    (page offset expect actual : BitVec arch.bits) : LogLine :=
  slogLine "error" " type=%s test=%i cpu=%i addr=0x%x%03x expect=0x%x actual=0x%x"
    [(.str type : FormatArg arch), .int testNum, .int cpuNum, .uint page, .uint offset,
      .uint expect, .uint actual]
    [.str, .int, .int, .uint, .uint, .uint, .uint] rfl (formatOk_toList rfl rfl)

end Memtest
