import Memtest.Smp.Madt
import Memtest.Windows.VmMap

/-!
# The proximity domains of the SRAT (`system/smp.c`)

`find_numa_nodes_in_srat` goes through the entries of the System Resource Affinity Table twice. The
first pass collects the ranges of memory and numbers their proximity domains, and checks the sizes
of the entries; the second one looks up the domain of each CPU. An entry that is not as it should be
ends either pass at once, with the tables as they are.
-/

namespace Memtest

/-- `proximity_domains`, `memory_affinity_ranges` and `cpu_num_to_proximity_domain_idx`. The first
two are the parts of the arrays that are in use, so their lengths are the counters. -/
structure SratState where
  proximityDomains : List ℕ
  memoryAffinityRanges : List MemoryAffinity
  cpuNumToProximityDomainIdx : ℕ → ℕ

/-- As `smp_init` sets them. -/
def SratState.init : SratState := ⟨[], [], fun _ => 0⟩

/-- `MAX_APIC_IDS`, the size of `memory_affinity_ranges`. -/
def maxApicIds : ℕ := 512

/-- `MAX_PROXIMITY_DOMAINS`. -/
def maxProximityDomains : ℕ := maxApicIds

/-- `sizeof(rsdt_header_t)`. -/
def rsdtHeaderSize : ℕ := 36

/-- `sizeof(srat_table_header_t)`. -/
def sratTableHeaderSize : ℕ := 48

/-- `sizeof(srat_processor_lapic_affinity_entry_t)`. -/
def sratLapicEntrySize : ℕ := 16

/-- `sizeof(srat_memory_affinity_entry_t)`. -/
def sratMemoryEntrySize : ℕ := 40

/-- `sizeof(srat_processor_lx2apic_affinity_entry_t)`. -/
def sratX2apicEntrySize : ℕ := 24

/-! ### The first pass -/

/-- A range of the domain with the index `found` is added, if there is room. -/
def SratState.addRangeOf (s : SratState) (found start stop : ℕ) : Bool × SratState :=
  if s.memoryAffinityRanges.length < maxApicIds then
    (true, { s with memoryAffinityRanges := s.memoryAffinityRanges ++ [⟨found, start, stop⟩] })
  else (false, s)

/-- What is done with an enabled memory affinity entry: whether the pass goes on, and the state.
The domain is looked up and added if it is new. An entry that ends before it starts, or one domain
too many, stops the pass with the state as it is. -/
def SratState.addRange (s : SratState) (proximityDomain start stop : ℕ) : Bool × SratState :=
  if stop < start then (false, s)
  else
    match s.proximityDomains.findIdx? (· = proximityDomain) with
    | some found => s.addRangeOf found start stop
    | none =>
        if s.proximityDomains.length < maxProximityDomains then
          { s with proximityDomains := s.proximityDomains ++ [proximityDomain] }.addRangeOf
            s.proximityDomains.length start stop
        else (false, s)

/-- The entry is of a type that is known and has the size of that type. -/
def sratSizeOk (hw : SmpHw) (ptr : ℕ) : Bool :=
  hw.entryType ptr = 0 && hw.entryLength ptr = sratLapicEntrySize ||
    (hw.entryType ptr = 1 && hw.entryLength ptr = sratMemoryEntrySize ||
      hw.entryType ptr = 2 && hw.entryLength ptr = sratX2apicEntrySize)

theorem entryLength_pos_of_sratSizeOk {hw : SmpHw} {ptr : ℕ} (h : sratSizeOk hw ptr = true) :
    0 < hw.entryLength ptr := by
  simp only [sratSizeOk, Bool.or_eq_true, Bool.and_eq_true, decide_eq_true_eq] at h
  simp only [sratLapicEntrySize, sratMemoryEntrySize, sratX2apicEntrySize] at h
  omega

/-- A memory affinity entry with `SRAT_MAF_ENABLED`. -/
def sratMemoryEnabled (hw : SmpHw) (ptr : ℕ) : Bool :=
  hw.entryType ptr = 1 && hw.field 4 (ptr + 28) &&& 1 ≠ 0

/-- `proximity_domain` of a memory affinity entry. -/
def sratMemoryDomain (hw : SmpHw) (ptr : ℕ) : ℕ := hw.field 4 (ptr + 2)

/-- `base_address` of a memory affinity entry. -/
def sratMemoryStart (hw : SmpHw) (ptr : ℕ) : ℕ := hw.field 8 (ptr + 8)

/-- `base_address + address_length` of a memory affinity entry. -/
def sratMemoryEnd (hw : SmpHw) (ptr : ℕ) : ℕ :=
  (hw.field 8 (ptr + 8) + hw.field 8 (ptr + 16)) % 2 ^ 64

/-- What the first pass does with an entry of the right size. -/
def SratState.memoryEntry (hw : SmpHw) (s : SratState) (ptr : ℕ) : Bool × SratState :=
  if sratMemoryEnabled hw ptr then
    s.addRange (sratMemoryDomain hw ptr) (sratMemoryStart hw ptr) (sratMemoryEnd hw ptr)
  else (true, s)

/-- The first pass from the entry at `ptr`: whether it gets to the end, and the state there. -/
def sratPass1 (hw : SmpHw) (tableEnd : ℕ) (s : SratState) (ptr : ℕ) : Bool × SratState :=
  if ptr < tableEnd then
    if sratSizeOk hw ptr then
      let r := s.memoryEntry hw ptr
      if r.1 then sratPass1 hw tableEnd r.2 (ptr + hw.entryLength ptr) else r
    else (false, s)
  else (true, s)
termination_by tableEnd - ptr
decreasing_by
  have hpos := entryLength_pos_of_sratSizeOk ‹sratSizeOk hw ptr = true›
  omega

/-! ### The second pass -/

/-- The proximity domain and the APIC id of an enabled CPU entry, of either kind. -/
def sratCpu (hw : SmpHw) (ptr : ℕ) : Option (ℕ × ℕ) :=
  if hw.entryType ptr = 0 then
    if hw.field 4 (ptr + 4) &&& 1 ≠ 0 then
      some (hw.field 3 (ptr + 9) <<< 8 ||| hw.field 1 (ptr + 2), hw.field 1 (ptr + 3))
    else none
  else if hw.entryType ptr = 2 then
    if hw.field 4 (ptr + 12) &&& 1 ≠ 0 then some (hw.field 4 (ptr + 4), hw.field 4 (ptr + 8))
    else none
  else none

/-- The number of the CPU with an APIC id. -/
def cpuOfApicId (cpus : SmpState) (apicId : ℕ) : Option ℕ :=
  (List.range cpus.numAvailableCpus).find? fun i => cpus.cpuNumToApicId i = apicId

/-- `find_proximity_domain`, and what follows it. -/
def SratState.assign (cpus : SmpState) (s : SratState) (proximityDomain apicId : ℕ) :
    Bool × SratState :=
  match s.proximityDomains.findIdx? (· = proximityDomain) with
  | none => (false, s)
  | some found1 =>
      match cpuOfApicId cpus apicId with
      | none => (false, s)
      | some found2 =>
          (true, { s with
            cpuNumToProximityDomainIdx :=
              Function.update s.cpuNumToProximityDomainIdx found2 found1 })

/-- What the second pass does with an entry. -/
def SratState.cpuEntry (hw : SmpHw) (cpus : SmpState) (s : SratState) (ptr : ℕ) :
    Bool × SratState :=
  match sratCpu hw ptr with
  | none => (true, s)
  | some (proximityDomain, apicId) => s.assign cpus proximityDomain apicId

/-- The second pass from the entry at `ptr`. At an entry of length 0 it would stay forever, and has
no result. -/
def sratPass2 (hw : SmpHw) (cpus : SmpState) (tableEnd : ℕ) (s : SratState) (ptr : ℕ) :
    Option (Bool × SratState) :=
  if ptr < tableEnd then
    let r := s.cpuEntry hw cpus ptr
    if r.1 then
      if 0 < hw.entryLength ptr then sratPass2 hw cpus tableEnd r.2 (ptr + hw.entryLength ptr)
      else none
    else some r
  else some (true, s)
termination_by tableEnd - ptr

/-! ### `find_numa_nodes_in_srat` -/

/-- The checks of the table before its entries are looked at. -/
def sratReadable (hw : SmpHw) (sratAddr : ℕ) : Bool :=
  sratAddr ≠ 0 && hw.mapRegion sratAddr rsdtHeaderSize true &&
    hw.mapRegion sratAddr (hw.tableLength sratAddr) true &&
    hw.acpiChecksum sratAddr (hw.tableLength sratAddr) = 0 &&
    sratTableHeaderSize + sratLapicEntrySize + sratMemoryEntrySize ≤ hw.tableLength sratAddr

/-- `srat_table_end`. -/
def sratEnd (hw : SmpHw) (sratAddr : ℕ) : ℕ := sratAddr + hw.tableLength sratAddr

/-- `find_numa_nodes_in_srat`, for the CPUs that have been discovered before. -/
def findNumaNodesInSrat (hw : SmpHw) (sratAddr : ℕ) (cpus : SmpState) (s : SratState) :
    Option (Bool × SratState) :=
  if sratReadable hw sratAddr then
    match sratPass1 hw (sratEnd hw sratAddr) s (sratAddr + sratTableHeaderSize) with
    | (true, s) => sratPass2 hw cpus (sratEnd hw sratAddr) s (sratAddr + sratTableHeaderSize)
    | (false, s) => some (false, s)
  else some (false, s)

/-- What `global_init` makes of `enable_numa` behind `smp_init`. -/
def numaStaysEnabled (enableNuma : Bool) (s : SratState) : Bool :=
  if s.proximityDomains.length = 0 then false else enableNuma

end Memtest
