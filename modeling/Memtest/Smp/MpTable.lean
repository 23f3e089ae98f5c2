import Memtest.Smp.Madt

/-!
# The floating MP structure, and `smp_init` (`system/smp.c`)

Where the MADT gives no CPUs, an x86 build looks for the table of the MultiProcessor Specification
and goes on from the CPUs counted so far. `smp_init` sets these to the boot CPU alone, and it sees
to it afterwards that the boot CPU has slot 0 (`verify_bsp_is_cpu0`).
-/

namespace Memtest

/-- `FPSignature`. -/
def fpSignature : ℕ := 0x5F504D5F

/-- `MPCSignature`. -/
def mpcSignature : ℕ := 0x504D4350

/-- `sizeof(mp_config_table_header_t)`. -/
def mpConfigTableHeaderSize : ℕ := 44

/-- `sizeof(mp_processor_entry_t)`. -/
def mpProcessorEntrySize : ℕ := 20

/-- The size of the entries of the other types, which is the same for all four. -/
def mpOtherEntrySize : ℕ := 8

/-! ### `read_mp_config_table` -/

/-- The case `MP_PROCESSOR` up to the check of the version. -/
def mpProcessor (hw : SmpHw) (st : SmpState) (ptr : ℕ) : SmpState :=
  if hw.field 1 (ptr + 3) &&& 2 ≠ 0 then
    { st with cpuNumToApicId := Function.update st.cpuNumToApicId 0 (hw.field 1 (ptr + 1)) }
  else if st.numAvailableCpus < maxCpus then
    { st with
      cpuNumToApicId :=
        Function.update st.cpuNumToApicId st.numAvailableCpus (hw.field 1 (ptr + 1))
      numAvailableCpus := st.numAvailableCpus + 1 }
  else st

/-- The loop of `read_mp_config_table` from the entry at `ptr`. Entries have a fixed length by
their type, and the recursion is on what is left of the table. A processor with an external APIC
or an entry of an unknown type ends the scan, with a single CPU left but with the ids that were
stored. -/
def scanMpConfig (hw : SmpHw) (tableEnd : ℕ) (st : SmpState) (ptr : ℕ) : Bool × SmpState :=
  if ptr < tableEnd then
    if hw.entryType ptr = 0 then
      -- A local 82489DX cannot be handled.
      if hw.field 1 (ptr + 2) &&& 0xf0 ≠ 0x10 then
        (false, { mpProcessor hw st ptr with numAvailableCpus := 1 })
      else scanMpConfig hw tableEnd (mpProcessor hw st ptr) (ptr + mpProcessorEntrySize)
    else if hw.entryType ptr ≤ 4 then scanMpConfig hw tableEnd st (ptr + mpOtherEntrySize)
    else (false, { st with numAvailableCpus := 1 })
  else (true, st)
termination_by tableEnd - ptr
decreasing_by all_goals simp only [mpProcessorEntrySize, mpOtherEntrySize]; omega

/-- `read_mp_config_table`. The header is mapped to learn the length and the whole table is mapped
after that; signature and checksum decide whether it is used. The entries are only scanned once
the registers of the APIC are mapped. -/
def readMpConfigTable (hw : SmpHw) (st : SmpState) (addr : ℕ) : Bool × SmpState :=
  if hw.apicX2apic ∨ ¬hw.mapRegion addr mpConfigTableHeaderSize true ∨
      ¬hw.mapRegion addr (hw.field 2 (addr + 4)) true ∨ hw.field 4 addr ≠ mpcSignature ∨
      hw.acpiChecksum addr (hw.field 2 (addr + 4)) ≠ 0 then
    (false, st)
  else if hw.mapRegion (hw.field 4 (addr + 36)) apicRegsSize false then
    scanMpConfig hw (addr + hw.field 2 (addr + 4)) { st with apic := true }
      (addr + mpConfigTableHeaderSize)
  else (false, { st with apic := false })

/-! ### `find_cpus_in_floating_mp_struct` -/

/-- `scan_for_floating_ptr_struct`. -/
def scanForFloatingPtrStruct (hw : SmpHw) (addr length : ℕ) : Option ℕ :=
  ((List.range (length / 4)).map fun i => addr + 4 * i).find? fun ptr =>
    hw.field 4 ptr = fpSignature && hw.acpiChecksum ptr 16 = 0 && hw.field 1 (ptr + 8) = 1 &&
      (hw.field 1 (ptr + 9) = 1 || hw.field 1 (ptr + 9) = 4)

/-- The places where the floating pointer structure is looked for, in order; the last one is the
Extended BIOS Data Area, if there is one. -/
def findFloatingPtrStruct (hw : SmpHw) : Option ℕ :=
  (scanForFloatingPtrStruct hw 0x0 0x400).or <|
    (scanForFloatingPtrStruct hw (639 * 0x400) 0x400).or <|
      (scanForFloatingPtrStruct hw 0xf0000 0x10000).or <|
        if hw.field 2 0x40E <<< 4 ≠ 0 then
          scanForFloatingPtrStruct hw (hw.field 2 0x40E <<< 4) 0x400
        else none

/-- `find_cpus_in_floating_mp_struct`. With an x2APIC it is not tried at all. The structure may
name one of the default configurations, or else point to a table; without either there are no CPUs
to be found. -/
def findCpusInFloatingMpStruct (hw : SmpHw) (st : SmpState) : Bool × SmpState :=
  if hw.apicX2apic then (false, st)
  else
    match findFloatingPtrStruct hw with
    | none => (false, st)
    | some fp =>
        if 0 < hw.field 1 (fp + 11) ∧ hw.field 1 (fp + 11) ≤ 7 then
          -- One of the default configurations, all of which have two CPUs.
          if hw.mapRegion 0xFEE00000 apicRegsSize false then
            (true,
              { cpuNumToApicId := Function.update (Function.update st.cpuNumToApicId 0 0) 1 1
                numAvailableCpus := 2
                apic := true })
          else (false, { st with apic := false })
        else if hw.field 4 (fp + 4) ≠ 0 then readMpConfigTable hw st (hw.field 4 (fp + 4))
        else (false, st)

/-! ### `smp_init` -/

/-- `verify_bsp_is_cpu0`: the loop stops at the first slot behind slot 0 that has the id of the boot
CPU. -/
def verifyBspIsCpu0 (hw : SmpHw) (st : SmpState) : SmpState :=
  if st.cpuNumToApicId 0 = hw.myApicId then st
  else
    match (List.range' 1 (st.numAvailableCpus - 1)).find? fun i =>
        st.cpuNumToApicId i = hw.myApicId with
    | some i =>
        { st with
          cpuNumToApicId :=
            Function.update (Function.update st.cpuNumToApicId i (st.cpuNumToApicId 0)) 0
              hw.myApicId }
    | none => { st with cpuNumToApicId := Function.update st.cpuNumToApicId 0 hw.myApicId }

/-- What is tried where the MADT gives no CPUs. -/
def madtFallback (build : SmpBuild) (hw : SmpHw) (st : SmpState) : SmpState :=
  match build with
  | .x86 _ => (findCpusInFloatingMpStruct hw st).2
  | _ => st

/-- The CPUs as `smp_init` finds them, where it looks for any. -/
def discoverCpus (build : SmpBuild) (hw : SmpHw) : SmpState :=
  let st :=
    match findCpusInMadt build hw .init with
    | (true, st) => st
    | (false, st) => madtFallback build hw st
  match build with
  | .x86 _ => if st.apic ∨ hw.apicX2apic then verifyBspIsCpu0 hw st else st
  | _ => st

end Memtest
