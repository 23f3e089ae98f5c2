import Mathlib.Data.Nat.Bitwise
import Mathlib.Data.UInt
import Mathlib.Logic.Function.Basic
import Memtest.Arch
import Memtest.Tests.RunTest

/-!
# The CPUs listed in the MADT (`system/smp.c`)

`find_cpus_in_madt` goes through the entries of the Multiple APIC Description Table and numbers the
CPUs in the order it finds them. Each entry has its length in its second byte. What kind of entry
stands for a CPU depends on the architecture, and so does whether a CPU that is listed twice is
numbered twice.

An address is a number here, and `map_region` is a parameter: whether it maps the region that is
asked for. What is read through the pointer it returns is the memory at the address.
-/

namespace Memtest

/-- What `system/smp.c` is compiled for. -/
inductive SmpBuild
  | x86 (arch : Arch)
  | loongarch
  | aarch64
  deriving DecidableEq, Repr

/-- What the discovery of the CPUs reads from the machine: its memory, whether a call of
`map_region` succeeds, `acpi_config.madt_addr`, `apic_x2apic`, `MPIDR_EL1`, and what `my_apic_id`
returns. -/
structure SmpHw where
  mem : ℕ → UInt8
  mapRegion : ℕ → ℕ → Bool → Bool
  madtAddr : ℕ
  apicX2apic : Bool
  mpidrEl1 : ℕ
  myApicId : ℕ

/-- `cpu_num_to_apic_id`, `num_available_cpus`, and whether `apic` has been set. -/
structure SmpState where
  cpuNumToApicId : ℕ → ℕ
  numAvailableCpus : ℕ
  apic : Bool

/-- As `smp_init` sets them. -/
def SmpState.init : SmpState := ⟨fun _ => 0, 1, false⟩

/-- The local variables of `find_cpus_in_madt` beside the state. -/
structure MadtScan where
  state : SmpState
  foundCpus : ℕ
  apicAddr : ℕ

/-- `APIC_REGS_SIZE`. -/
def apicRegsSize : ℕ := 4096

/-- `MPIDR_AFFINITY_MASK`. -/
def mpidrAffinityMask : ℕ := 0xFF00FFFFFF

/-! ### Reading tables -/

namespace SmpHw

variable (hw : SmpHw)

/-- A little-endian field of `n` bytes. -/
def field : ℕ → ℕ → ℕ
  | 0, _ => 0
  | n + 1, addr => (hw.mem addr).toNat + 256 * field n (addr + 1)

/-- `acpi_checksum`, which sums up in a `uint8_t`. -/
def acpiChecksum (addr length : ℕ) : UInt8 :=
  (List.range length).foldl (fun sum i => sum + hw.mem (addr + i)) 0

/-- `h.length` of the header of an ACPI table. -/
def tableLength (addr : ℕ) : ℕ := hw.field 4 (addr + 4)

/-- `type` of a `madt_entry_header_t`. -/
def entryType (ptr : ℕ) : ℕ := hw.field 1 ptr

/-- `length` of a `madt_entry_header_t`. -/
def entryLength (ptr : ℕ) : ℕ := hw.field 1 (ptr + 1)

/-- `read_sysreg(mpidr_el1) & MPIDR_AFFINITY_MASK`. -/
def bspMpidr : ℕ := hw.mpidrEl1 &&& mpidrAffinityMask

end SmpHw

/-- `sizeof(madt_table_header_t)`. -/
def madtTableHeaderSize : ℕ := 44

/-- `sizeof(madt_processor_entry_t)` of the x86 builds. -/
def madtProcessorEntrySize : ℕ := 8

/-- `sizeof(madt_processor_x2apic_entry_t)`. -/
def madtProcessorX2apicEntrySize : ℕ := 16

/-- Where `lapic_addr` is in a `madt_lapic_addr_entry_t`. The structure is not packed, so on a
64-bit build the field has the alignment of its eight bytes. -/
def lapicAddrOffset : Arch → ℕ
  | .b32 => 4
  | .b64 => 8

/-- `sizeof(madt_lapic_addr_entry_t)`. -/
def madtLapicAddrEntrySize (arch : Arch) : ℕ := lapicAddrOffset arch + 8

/-! ### Numbering a CPU -/

/-- `apic_id_already_listed`. -/
def apicIdAlreadyListed (cpuNumToApicId : ℕ → ℕ) (apicId foundCpus : ℕ) : Bool :=
  (List.range (min foundCpus maxCpus)).any fun i => cpuNumToApicId i = apicId

/-- What is done with the id of an enabled CPU on all builds but AArch64. The ids are stored in
the order of the table until the arrays are full; further CPUs are only counted. -/
def MadtScan.add (s : MadtScan) (apicId : ℕ) : MadtScan :=
  if s.state.numAvailableCpus < maxCpus then
    { s with
      state := { s.state with
        cpuNumToApicId := Function.update s.state.cpuNumToApicId s.foundCpus apicId
        -- The first CPU takes the slot of the boot CPU, which has been counted already.
        numAvailableCpus :=
          if 0 < s.foundCpus then s.state.numAvailableCpus + 1 else s.state.numAvailableCpus }
      foundCpus := s.foundCpus + 1 }
  else { s with foundCpus := s.foundCpus + 1 }

/-- The same on an x86 build, where a CPU may be listed more than once. -/
def MadtScan.addNew (s : MadtScan) (apicId : ℕ) : MadtScan :=
  if apicIdAlreadyListed s.state.cpuNumToApicId apicId s.foundCpus then s else s.add apicId

/-- The same on AArch64, where the boot CPU has its slot from the start. -/
def MadtScan.addSecondary (s : MadtScan) (bspMpidr mpidr : ℕ) : MadtScan :=
  if mpidr ≠ bspMpidr ∧ s.state.numAvailableCpus < maxCpus then
    { s with
      state := { s.state with
        cpuNumToApicId := Function.update s.state.cpuNumToApicId s.state.numAvailableCpus mpidr
        numAvailableCpus := s.state.numAvailableCpus + 1 }
      foundCpus := s.foundCpus + 1 }
  else { s with foundCpus := s.foundCpus + 1 }

/-! ### The entries -/

/-- What is done with an entry on an x86 build; `none` where the table is rejected. The entries of
the three kinds that are used must have exactly the length of their structure, and all other kinds
are passed over. The two kinds of CPU entry have their flags and ids at different places. -/
def x86Entry (arch : Arch) (hw : SmpHw) (s : MadtScan) (ptr : ℕ) : Option MadtScan :=
  if hw.entryType ptr = 0 then
    if hw.entryLength ptr ≠ madtProcessorEntrySize then none
    else if hw.field 4 (ptr + 4) &&& 0x3 ≠ 0 then some (s.addNew (hw.field 1 (ptr + 3)))
    else some s
  else if hw.entryType ptr = 9 then
    if hw.entryLength ptr ≠ madtProcessorX2apicEntrySize then none
    else if hw.field 4 (ptr + 8) &&& 0x1 ≠ 0 then some (s.addNew (hw.field 4 (ptr + 4)))
    else some s
  else if hw.entryType ptr = 5 then
    if hw.entryLength ptr ≠ madtLapicAddrEntrySize arch then none
    else some { s with apicAddr := hw.field 8 (ptr + lapicAddrOffset arch) % 2 ^ arch.bits }
  else some s

/-- What is done with an entry on LoongArch. -/
def loongarchEntry (hw : SmpHw) (s : MadtScan) (ptr : ℕ) : Option MadtScan :=
  if hw.entryType ptr = 17 ∧ hw.field 4 (ptr + 11) &&& 0x3 ≠ 0 then
    some (s.add (hw.field 4 (ptr + 7)))
  else some s

/-- What is done with an entry on AArch64. -/
def aarch64Entry (hw : SmpHw) (s : MadtScan) (ptr : ℕ) : Option MadtScan :=
  if hw.entryType ptr = 11 then
    if hw.entryLength ptr < 76 then none
    else if hw.field 4 (ptr + 12) &&& 0x9 ≠ 0 then
      some (s.addSecondary hw.bspMpidr (hw.field 8 (ptr + 68) &&& mpidrAffinityMask))
    else some s
  else some s

/-- The body of the loop behind the checks that all builds make. -/
def madtEntry (build : SmpBuild) (hw : SmpHw) (s : MadtScan) (ptr : ℕ) : Option MadtScan :=
  match build with
  | .x86 arch => x86Entry arch hw s ptr
  | .loongarch => loongarchEntry hw s ptr
  | .aarch64 => aarch64Entry hw s ptr

/-- The loop of `find_cpus_in_madt` from the entry at `ptr`: whether it gets to the end of the
table, and the variables where it stops. -/
def scanMadt (build : SmpBuild) (hw : SmpHw) (tableEnd : ℕ) (s : MadtScan) (ptr : ℕ) :
    Bool × MadtScan :=
  if ptr + 2 ≤ tableEnd then
    if hw.entryLength ptr < 2 ∨ tableEnd < ptr + hw.entryLength ptr then (false, s)
    else
      match madtEntry build hw s ptr with
      | none => (false, s)
      | some s => scanMadt build hw tableEnd s (ptr + hw.entryLength ptr)
  else (true, s)
termination_by tableEnd - ptr

/-! ### `find_cpus_in_madt` -/

/-- The checks of the table before its entries are looked at. -/
def madtReadable (hw : SmpHw) : Bool :=
  hw.madtAddr ≠ 0 && hw.mapRegion hw.madtAddr madtTableHeaderSize true &&
    hw.mapRegion hw.madtAddr (hw.tableLength hw.madtAddr) true &&
    hw.acpiChecksum hw.madtAddr (hw.tableLength hw.madtAddr) = 0

/-- `mpc_table_end`. -/
def madtEnd (hw : SmpHw) : ℕ := hw.madtAddr + hw.tableLength hw.madtAddr

/-- The variables before the first entry. -/
def madtStart (build : SmpBuild) (hw : SmpHw) (st : SmpState) : MadtScan where
  state :=
    match build with
    | .aarch64 => { st with cpuNumToApicId := Function.update st.cpuNumToApicId 0 hw.bspMpidr }
    | _ => st
  foundCpus := 0
  apicAddr := hw.field 4 (hw.madtAddr + 36)

/-- What is done behind the last entry: AArch64 has no registers of an APIC to map. -/
def mapApic (build : SmpBuild) (hw : SmpHw) (s : MadtScan) : Bool × SmpState :=
  if build = .aarch64 ∨ hw.apicX2apic then (true, s.state)
  else if hw.mapRegion s.apicAddr apicRegsSize false then (true, { s.state with apic := true })
  else (false, { s.state with numAvailableCpus := 1, apic := false })

/-- `find_cpus_in_madt`. -/
def findCpusInMadt (build : SmpBuild) (hw : SmpHw) (st : SmpState) : Bool × SmpState :=
  if madtReadable hw then
    match scanMadt build hw (madtEnd hw) (madtStart build hw st)
        (hw.madtAddr + madtTableHeaderSize) with
    | (true, s) => mapApic build hw s
    | (false, s) => (false, s.state)
  else (false, st)

end Memtest
