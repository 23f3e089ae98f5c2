import Mathlib.Data.List.DropRight
import Memtest.Report.Printf

/-!
# The report and the lines of the serial log (`app/reports.c`)

`format_results` and `slog_begin` set `buf_end` before anything is formatted, the one to leave room
for a NUL and the other one for CR, LF and NUL. The data that is formatted is taken as it is when
it is read: a string may have any contents, and a number any value of its type.
-/

namespace Memtest

/-! ### The data -/

/-- What is used of an `imc_info_t` and of a `ram_info_t`. -/
structure RamInfo where
  type : List Char
  freq : BitVec 16
  tCL : BitVec 16
  tCLDec : BitVec 8
  tRCD : BitVec 16
  tRP : BitVec 16
  tRAS : BitVec 16

/-- What is used of an `spd_info`. -/
structure SpdInfo where
  isValid : Bool
  slotNum : BitVec 8
  jedecCode : BitVec 16
  moduleSize : BitVec 32
  type : List Char
  sku : List Char
  freq : BitVec 16
  hasECC : Bool
  hasBadCRC : Bool

/-- What is used of a `test_pattern_t`. -/
structure TestReport where
  enabled : Bool
  errors : BitVec 32
  description : List Char

/-- What is reported. A string whose pointer is `NULL` is `none`. The registers of the clock are
there on the targets that have them. -/
structure ReportData (arch : Arch) where
  rtc : Option (ℕ → BitVec 8)
  cpuModel : Option (List Char)
  boardMfg : Option (List Char)
  boardProd : Option (List Char)
  systemSerial : Option (List Char)
  baseboardSerial : Option (List Char)
  numPmPages : BitVec arch.bits
  imc : RamInfo
  ram : RamInfo
  spdSlotCache : List SpdInfo
  jep106Name : BitVec 16 → Option (List Char)
  testList : List TestReport
  passNum : BitVec 32
  errorCount : BitVec 64
  errorCountCecc : BitVec 64
  clksPerMsec : BitVec 32
  runStartTime : BitVec 64
  tsc : BitVec 64

/-- The date and the time. -/
structure DateTime where
  year : BitVec 32
  mon : BitVec 32
  day : BitVec 32
  hour : BitVec 32
  min : BitVec 32
  sec : BitVec 32

/-! ### The clock -/

/-- `bcd_to_bin`. -/
def bcdToBin (bcd : BitVec 8) : BitVec 8 := (bcd >>> 4) * 10 + (bcd &&& 0x0F)

/-- `rtc_get_datetime`, from what is read from the registers. -/
def rtcGetDatetime (rtcRead : ℕ → BitVec 8) : DateTime :=
  let rtcStb := rtcRead 0x0B
  let rtcPm := rtcRead 0x04 &&& 0x80 ≠ 0
  -- the registers are BCD unless the clock is in binary mode
  let bin (b : BitVec 8) := if rtcStb &&& 0x04 = 0 then bcdToBin b else b
  let rtcHour := bin (rtcRead 0x04 &&& 0x7F)
  let rtcHour :=
    if rtcStb &&& 0x02 = 0 then rtcHour % 12 + (if rtcPm then 12 else 0) else rtcHour
  let rtcCent := (bin (rtcRead 0x32)).setWidth 32
  { year := (if rtcCent ≠ 0 then rtcCent * 100 else 2000) + (bin (rtcRead 0x09)).setWidth 32
    mon := (bin (rtcRead 0x08)).setWidth 32
    day := (bin (rtcRead 0x07)).setWidth 32
    hour := rtcHour.setWidth 32
    min := (bin (rtcRead 0x02)).setWidth 32
    sec := (bin (rtcRead 0x00)).setWidth 32 }

/-! ### `format_results` -/

section

variable {arch : Arch}

/-- A cast to `uintptr_t`. -/
def uintArg {w : ℕ} (value : BitVec w) : FormatArg arch := .uint (value.setWidth arch.bits)

/-- A string that is formatted where there is one. -/
def formatString (arch : Arch) (fmt : String) : Option (List Char) → Formatter Unit
  | none => pure ()
  | some s => bufPrintf fmt [(.str s : FormatArg arch)]

/-- The half clock cycle in a CAS latency. -/
def tCLDecText (info : RamInfo) : List Char := if info.tCLDec ≠ 0 then ".5".toList else []

/-- `test_desc_text`. -/
def testDescText (description : List Char) : List Char :=
  let start := if description.head? = some '[' then description.tail else description
  (start.takeWhile (· ≠ ']')).rdropWhile (· = ' ')

variable (d : ReportData arch)

/-- The date and time. -/
def formatDate (arch : Arch) (rtcRead : ℕ → BitVec 8) : Formatter Unit := do
  let t := rtcGetDatetime rtcRead
  bufPrintf "Date: %04i-%02i-%02i %02i:%02i:%02i\r\n"
    [(.int t.year : FormatArg arch), .int t.mon, .int t.day, .int t.hour, .int t.min, .int t.sec]
  bufPrintf "\r\n" ([] : List (FormatArg arch))

/-- The motherboard. -/
def formatBoard : Formatter Unit :=
  match d.boardMfg, d.boardProd with
  | some mfg, some prod =>
      bufPrintf "Motherboard: %s %s\r\n" [(.str mfg : FormatArg arch), .str prod]
  | _, _ => pure ()

/-- The line for the memory controller, or else for the memory. -/
def formatRam : Formatter Unit :=
  let imc := d.imc
  let ram := d.ram
  if imc.freq ≠ 0 then
    if imc.type[3]? = some '5' then
      bufPrintf "IMC: %s-%u / CAS %u%s-%u-%u-%u\r\n"
        [(.str imc.type : FormatArg arch), uintArg imc.freq, uintArg imc.tCL, .str (tCLDecText imc),
          uintArg imc.tRCD, uintArg imc.tRP, uintArg imc.tRAS]
    else
      bufPrintf "IMC: %uMHz (%s-%u) CAS %u%s-%u-%u-%u\r\n"
        [(uintArg (imc.freq / 2) : FormatArg arch), .str imc.type, uintArg imc.freq,
          uintArg imc.tCL, .str (tCLDecText imc), uintArg imc.tRCD, uintArg imc.tRP,
          uintArg imc.tRAS]
  else if 0 < ram.freq ∧ 0 < ram.tCL then
    if ram.freq ≤ 166 then
      bufPrintf "RAM: %uMHz (%s PC%u) CAS %u-%u-%u-%u\r\n"
        [(uintArg ram.freq : FormatArg arch), .str ram.type, uintArg ram.freq, uintArg ram.tCL,
          uintArg ram.tRCD, uintArg ram.tRP, uintArg ram.tRAS]
    else
      bufPrintf "RAM: %uMHz (%s-%u) CAS %u%s-%u-%u-%u\r\n"
        [(uintArg (ram.freq / 2) : FormatArg arch), .str ram.type, uintArg ram.freq,
          uintArg ram.tCL, .str (tCLDecText ram), uintArg ram.tRCD, uintArg ram.tRP,
          uintArg ram.tRAS]
  else pure ()

/-- The manufacturer of a module. -/
def formatMaker (fmtName fmtCode : String) (spdi : SpdInfo) : Formatter Unit :=
  match d.jep106Name spdi.jedecCode with
  | some mfg => bufPrintf fmtName [(.str mfg : FormatArg arch)]
  | none =>
      if spdi.jedecCode ≠ 0 then bufPrintf fmtCode [(uintArg spdi.jedecCode : FormatArg arch)]
      else pure ()

/-- A string that is formatted unless it is empty. -/
def formatSku (arch : Arch) (fmt : String) (sku : List Char) : Formatter Unit :=
  if sku ≠ [] then bufPrintf fmt [(.str sku : FormatArg arch)] else pure ()

/-- The SPD information of a slot. -/
def formatSlot (spdi : SpdInfo) : Formatter Unit :=
  if spdi.isValid then do
    bufPrintf "  Slot %i: %u MB %s-%u"
      [(.int (spdi.slotNum.setWidth 32) : FormatArg arch), uintArg spdi.moduleSize, .str spdi.type,
        uintArg spdi.freq]
    (if spdi.hasBadCRC then bufPrintf " [BAD CRC]" ([] : List (FormatArg arch)) else pure ())
    (if spdi.hasECC then bufPrintf " ECC" ([] : List (FormatArg arch)) else pure ())
    formatMaker d " - %s" " - Unknown (0x%x)" spdi
    formatSku arch " %s" spdi.sku
    bufPrintf "\r\n" ([] : List (FormatArg arch))
  else pure ()

/-- The result of a test, by its number. -/
def formatTest (arch : Arch) (test : TestReport × ℕ) : Formatter Unit :=
  if test.1.enabled then do
    bufPrintf "  Test %02i: [" [(.int (BitVec.ofNat 32 test.2) : FormatArg arch)]
    bufAppendStr (testDescText test.1.description)
    bufAppendStr (List.replicate (38 - (testDescText test.1.description).length) ' ')
    bufPrintf "]  Errors: %i\r\n" [(.int test.1.errors : FormatArg arch)]
  else pure ()

/-- The elapsed time in seconds. -/
def elapsedSecs : BitVec 32 :=
  if 0 < d.clksPerMsec ∧ 0 < d.runStartTime then
    ((d.tsc - d.runStartTime) / (1000 * d.clksPerMsec.setWidth 64)).setWidth 32
  else 0

/-- The status and the elapsed time. -/
def formatStatus : Formatter Unit :=
  let elHours := (elapsedSecs d).sdiv 3600
  let elMins := ((elapsedSecs d).srem 3600).sdiv 60
  let elSecs := (elapsedSecs d).srem 60
  let args : List (FormatArg arch) := [.int elHours, .int elMins, .int elSecs]
  if d.passNum = 0 then
    bufPrintf "Final Result: In progress (running for %02i:%02i:%02i)\r\n" args
  else if d.errorCount = 0 then
    bufPrintf "Final Result: PASS (running for %02i:%02i:%02i)\r\n" args
  else bufPrintf "Final Result: FAIL (running for %02i:%02i:%02i)\r\n" args

/-- What `format_results` formats. -/
def formatBody : Formatter Unit := do
  bufPrintf "Memtest86+ v1.51 Report\r\n" ([] : List (FormatArg arch))
  bufPrintf "=======================\r\n\r\n" ([] : List (FormatArg arch))
  (match d.rtc with
    | some rtcRead => formatDate arch rtcRead
    | none => pure ())
  formatString arch "CPU: %s\r\n" d.cpuModel
  formatBoard d
  formatString arch "System Serial: %s\r\n" d.systemSerial
  formatString arch "Baseboard Serial: %s\r\n" d.baseboardSerial
  bufPrintf "Memory: %u MB\r\n" [(.uint (d.numPmPages / 256) : FormatArg arch)]
  formatRam d
  bufPrintf "\r\n" ([] : List (FormatArg arch))
  bufPrintf "Memory SPD Information:\r\n" ([] : List (FormatArg arch))
  d.spdSlotCache.forM (formatSlot d)
  (if ¬d.spdSlotCache.any (·.isValid) then
    bufPrintf "  No SPD data available\r\n" ([] : List (FormatArg arch)) else pure ())
  bufPrintf "\r\n" ([] : List (FormatArg arch))
  bufPrintf "Per-Test Results:\r\n" ([] : List (FormatArg arch))
  d.testList.zipIdx.forM (formatTest arch)
  bufPrintf "\r\n" ([] : List (FormatArg arch))
  bufPrintf "Passes completed: %i\r\n" [(.int d.passNum : FormatArg arch)]
  bufPrintf "Errors: %u\r\n" [(uintArg d.errorCount : FormatArg arch)]
  bufPrintf "ECC Errors: %u\r\n" [(uintArg d.errorCountCecc : FormatArg arch)]
  bufPrintf "\r\n" ([] : List (FormatArg arch))
  formatStatus d

/-- `format_results`, with the buffer and its size. It returns the length of the text. -/
def formatResults (buf bufsize : ℕ) : Formatter ℕ := do
  modify fun s => { s with bufEnd := (buf + bufsize - 1 : ℕ), pos := buf }
  formatBody d
  modifyGet fun s =>
    let pos := if s.bufEnd ≤ s.pos then s.bufEnd.toNat else s.pos
    (pos - buf, { s with mem := Function.update s.mem pos '\x00', pos := pos })

/-! ### The lines of the log -/

/-- `sizeof(slog_buf)`. -/
def slogBufSize : ℕ := 256

/-- The start of a line: the time in tenths of a second, and the event. -/
def slogPrefix (ds : BitVec arch.bits) (event : List Char) : Formatter Unit :=
  bufPrintf "MTLOG ts=%u.%u ev=%s" [(.uint (ds / 10) : FormatArg arch), .uint (ds % 10), .str event]

/-- `slog_begin`, which has the buffer at an address. -/
def slogBegin (slogBuf : ℕ) (ds : BitVec arch.bits) (event : List Char) : Formatter Unit := do
  -- room is left for CR, LF and NUL
  modify fun s => { s with bufEnd := (slogBuf + slogBufSize - 3 : ℕ), pos := slogBuf }
  slogPrefix ds event

/-- `slog_end`, up to where the line is sent. -/
def slogEnd : Formatter Unit :=
  modify fun s =>
    let pos := if s.bufEnd < s.pos then s.bufEnd.toNat else s.pos
    { s with
      mem := Function.update (Function.update (Function.update s.mem pos '\r') (pos + 1) '\n')
        (pos + 2) '\x00'
      pos := pos + 2 }

end

end Memtest
