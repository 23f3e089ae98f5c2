import Memtest.Windows.Coverage

/-!
# The footprint of the program

`global_init` (`app/main.c`) looks for two places in memory the program fits into, so that it can
test each of them while it runs in the other one. What it looks for is the size of the code and the
data, and of as many stacks as there are CPUs enabled. The stack of a CPU is found by its number,
though (`system/cpulocal.c` and the startup code), and the thread-local storage above it is written
for every CPU that is available: by `run_at` and `relocate_to`, and by the barriers
(`lib/barrier.c`), whose flags lie in it.

Addresses are natural numbers. The arithmetic of `set_load_addr` is the one of `uintptr_t`.
-/

namespace Memtest

/-- `BSP_STACK_SIZE`. -/
def bspStackSize : ℕ := 16384

/-- `AP_STACK_SIZE`, which is also the size of a `local_flag_t`. -/
def apStackSize : ℕ := 2048

/-- `LOCALS_SIZE`. -/
def localsSize : ℕ := 16

/-- `MAX_APS`. -/
def maxAps : ℕ := 511

/-- `STACKS_SIZE`. -/
def stacksSize : ℕ := bspStackSize + maxAps * apStackSize

/-- The program when `global_init` chooses the load addresses: where it is (`_start`), how far
from there its stacks are (`_stacks - _start`), and the CPUs that are available and those of them
that are enabled. CPU 0 cannot be disabled. The image is loaded with room for the stacks of as
many CPUs as the program supports, so these fit into the address space. -/
structure Program (arch : Arch) where
  start : ℕ
  stacksOffset : ℕ
  numAvailableCpus : ℕ
  enabled : ℕ → Bool
  numAvailableCpus_pos : 0 < numAvailableCpus
  numAvailableCpus_le : numAvailableCpus ≤ maxAps + 1
  bsp_enabled : enabled 0 = true
  fits : start + stacksOffset + stacksSize < 2 ^ arch.bits

namespace Program

variable {arch : Arch}

/-! ### The load addresses -/

/-- `num_enabled_cpus`. -/
def numEnabledCpus (p : Program arch) : ℕ := (List.range p.numAvailableCpus).countP p.enabled

/-- `program_size`. -/
def programSize (p : Program arch) : ℕ :=
  p.stacksOffset + bspStackSize + (p.numEnabledCpus - 1) * apStackSize

/-- `page << PAGE_SHIFT`. -/
def pageAddress (arch : Arch) (page : ℕ) : ℕ := page <<< pageShift % 2 ^ arch.bits

/-- `addr_range_is_usable`. -/
def addrRangeIsUsable (arch : Arch) (pmMap : List PmSegment) (start size : ℕ) : Bool :=
  pmMap.any fun seg => decide (start ≥ pageAddress arch seg.start.toNat ∧
    (start + size) % 2 ^ arch.bits ≤ pageAddress arch seg.stop.toNat)

/-- The loop of `set_load_addr`: the first segment with room for the program at or above the lower
limit. Addresses are pages shifted within the width of the build, so they can wrap, as `tryEnd`
can. The loop gives up at a segment from the upper limit on, and a segment whose end is below the
lower limit is passed over after the room has been checked. -/
def findLoadAddr (arch : Arch) (programSize lowerLimit upperLimit : ℕ) : List PmSegment → Option ℕ
  | [] => none
  | seg :: pmMap =>
      let tryStart := pageAddress arch seg.start.toNat
      let tryLimit := pageAddress arch seg.stop.toNat
      let tryStart := if tryStart < lowerLimit then lowerLimit else tryStart
      let tryEnd := (tryStart + programSize) % 2 ^ arch.bits
      if tryEnd > tryLimit then findLoadAddr arch programSize lowerLimit upperLimit pmMap
      else if tryStart ≥ upperLimit then none
      else if tryEnd < lowerLimit then findLoadAddr arch programSize lowerLimit upperLimit pmMap
      else some tryStart

/-- `set_load_addr`, `none` where it returns false. -/
def setLoadAddr (p : Program arch) (pmMap : List PmSegment) (lowerLimit upperLimit : ℕ) :
    Option ℕ :=
  if p.start ≥ lowerLimit ∧ (p.start + p.programSize) % 2 ^ arch.bits ≤ upperLimit ∧
      addrRangeIsUsable arch pmMap p.start p.programSize = true then some p.start
  else findLoadAddr arch p.programSize lowerLimit upperLimit pmMap

/-! ### What the program writes at an address -/

/-- The bottom of the stack of a CPU, `stack_canary_addr`. -/
def slotBottom (p : Program arch) (addr cpu : ℕ) : ℕ :=
  if cpu > 0 then addr + p.stacksOffset + bspStackSize + (cpu - 1) * apStackSize
  else addr + p.stacksOffset

/-- Where the startup code puts the stack pointer of a CPU. Its thread-local storage lies above. -/
def stackTop (p : Program arch) (addr cpu : ℕ) : ℕ :=
  addr + p.stacksOffset + cpu * apStackSize + (bspStackSize - localsSize)

/-- The stack of a CPU with its thread-local storage. -/
def stackSlot (p : Program arch) (addr cpu : ℕ) : Set ℕ :=
  Set.Ico (p.slotBottom addr cpu) (p.stackTop addr cpu + localsSize)

/-- The values of `locals_offset` in the loop of `run_at` and `relocate_to`, for so many CPUs. -/
def localsOffsets : ℕ → ℕ → List ℕ
  | 0, _ => []
  | cpus + 1, localsOffset => localsOffset :: localsOffsets cpus (localsOffset + apStackSize)

/-- The thread-local storage that `run_at` and `relocate_to` write. -/
def writtenLocals (p : Program arch) (addr : ℕ) : Set ℕ :=
  {a | ∃ localsOffset ∈
      localsOffsets p.numAvailableCpus (p.stacksOffset + bspStackSize - localsSize),
    a ∈ Set.Ico (addr + localsOffset) (addr + localsOffset + localsSize)}

/-- `allocate_local_flag` for a value of `local_bytes_used`, which it sets to its result; `none`
where it returns -1. -/
def allocateLocalFlag (localBytesUsed : ℕ) : Option ℕ :=
  if localBytesUsed = localsSize then none else some (localBytesUsed + 1)

/-- The `flag_num` of `start_barrier`. -/
def startBarrierFlag : ℕ := (allocateLocalFlag 0).getD 0

/-- The `flag_num` of `run_barrier`. -/
def runBarrierFlag : ℕ := (allocateLocalFlag startBarrierFlag).getD 0

/-- `local_flags(flag_num)[cpu_num].flag`. -/
def flagAddr (p : Program arch) (addr flagNum cpu : ℕ) : ℕ :=
  addr + p.stacksOffset + bspStackSize - localsSize + flagNum + cpu * apStackSize

/-- The flags that `barrier_reset` clears, and the last CPU that comes to a wait. -/
def clearedFlags (p : Program arch) (addr flagNum : ℕ) : Set ℕ :=
  {a | ∃ cpu < p.numAvailableCpus, a = p.flagAddr addr flagNum cpu}

/-- A CPU that runs. -/
def Runs (p : Program arch) (cpu : ℕ) : Prop := cpu < p.numAvailableCpus ∧ p.enabled cpu = true

/-- The flags that are written by the CPUs that wait. -/
def waitFlags (p : Program arch) (addr flagNum : ℕ) : Set ℕ :=
  {a | ∃ cpu, p.Runs cpu ∧ a = p.flagAddr addr flagNum cpu} ∪ p.clearedFlags addr flagNum

/-- What is written for one of the CPUs. -/
def perCpuBytes (p : Program arch) (addr : ℕ) : Set ℕ :=
  {a | ∃ cpu, p.Runs cpu ∧ a ∈ p.stackSlot addr cpu} ∪ p.writtenLocals addr ∪
    p.waitFlags addr startBarrierFlag ∪ p.waitFlags addr runBarrierFlag

/-- The code and all data except the stacks. -/
def imageBytes (p : Program arch) (addr : ℕ) : Set ℕ := Set.Ico addr (addr + p.stacksOffset)

/-- The footprint that `global_init` reckons with. -/
def footprint (p : Program arch) (addr : ℕ) : Set ℕ := Set.Ico addr (addr + p.programSize)

/-! ### Test memory -/

/-- The page at which window `k` starts and window `k - 1` ends. On AArch64 `LOW_LOAD_LIMIT` depends
on where the memory starts; elsewhere it is constant. -/
def windowBound (lowLoadLimit : ℕ) : ℕ → ℕ
  | 0 => 0
  | 1 => lowLoadLimit >>> pageShift
  | k + 2 =>
      (lowLoadLimit >>> pageShift + vmWindowSize) / vmWindowSize * vmWindowSize + k * vmWindowSize

/-- The bytes of a page. -/
def pageBytes (page : ℕ) : Set ℕ := Set.Ico (page * pageSize) ((page + 1) * pageSize)

/-- The per-CPU areas stay in the footprint at both addresses, and in every window the program does
not write to the memory that is tested in it. -/
structure Safe (p : Program arch) (limits : PageLimits) (pmMap : List PmSegment)
    (lowLoadLimit lowLoadAddr highLoadAddr : ℕ) : Prop where
  low : p.perCpuBytes lowLoadAddr ⊆ p.footprint lowLoadAddr
  high : p.perCpuBytes highLoadAddr ⊆ p.footprint highLoadAddr
  spares : ∀ k, ∀ page ∈ pagesToTest limits pmMap (windowBound lowLoadLimit k)
      (windowBound lowLoadLimit (k + 1)),
    Disjoint (p.imageBytes (if k > 0 then lowLoadAddr else highLoadAddr) ∪
      p.perCpuBytes (if k > 0 then lowLoadAddr else highLoadAddr)) (pageBytes page)

/-! ### Where the areas of a CPU are -/

variable {p : Program arch} {addr cpu a : ℕ}

/-- The size of the program with a stack for each CPU that is available. This is how far the
per-CPU areas really go, since they are found by the number of the CPU; `programSize` counts the
enabled ones only. -/
def fullSize (p : Program arch) : ℕ :=
  p.stacksOffset + bspStackSize + (p.numAvailableCpus - 1) * apStackSize

theorem stackTop_add (p : Program arch) (addr cpu : ℕ) :
    p.stackTop addr cpu + localsSize =
      addr + p.stacksOffset + bspStackSize + cpu * apStackSize := by
  rw [stackTop, bspStackSize, localsSize]
  omega

theorem mem_localsOffsets {cpus localsOffset offset : ℕ} :
    offset ∈ localsOffsets cpus localsOffset ↔
      ∃ cpu < cpus, offset = localsOffset + cpu * apStackSize := by
  induction cpus generalizing localsOffset with
  | zero =>
    rw [localsOffsets]
    exact ⟨fun h => absurd h List.not_mem_nil, fun ⟨cpu, hcpu, _⟩ => absurd hcpu (by omega)⟩
  | succ cpus ih =>
    rw [localsOffsets, List.mem_cons, ih]
    constructor
    · rintro (rfl | ⟨cpu, hcpu, rfl⟩)
      · exact ⟨0, Nat.succ_pos cpus, by rw [Nat.zero_mul, Nat.add_zero]⟩
      · exact ⟨cpu + 1, by omega, by rw [Nat.succ_mul]; omega⟩
    · rintro ⟨cpu, hcpu, rfl⟩
      obtain _ | cpu := cpu
      · exact .inl (by rw [Nat.zero_mul, Nat.add_zero])
      · exact .inr ⟨cpu, by omega, by rw [Nat.succ_mul]; omega⟩

/-- The thread-local storage of a CPU is written for every CPU that is available. -/
theorem mem_writtenLocals : a ∈ p.writtenLocals addr ↔
    ∃ cpu < p.numAvailableCpus, p.stackTop addr cpu ≤ a ∧ a < p.stackTop addr cpu + localsSize := by
  have hoffset : ∀ cpu, addr + (p.stacksOffset + bspStackSize - localsSize + cpu * apStackSize) =
      p.stackTop addr cpu := by
    intro cpu
    rw [stackTop, bspStackSize, localsSize]
    omega
  constructor
  · rintro ⟨offset, hoff, hlo, hhi⟩
    obtain ⟨cpu, hcpu, rfl⟩ := mem_localsOffsets.mp hoff
    rw [hoffset] at hlo hhi
    exact ⟨cpu, hcpu, hlo, hhi⟩
  · rintro ⟨cpu, hcpu, hlo, hhi⟩
    refine ⟨_, mem_localsOffsets.mpr ⟨cpu, hcpu, rfl⟩, ?_⟩
    rw [hoffset]
    exact ⟨hlo, hhi⟩

/-- A flag lies in the thread-local storage of its CPU. -/
theorem flagAddr_mem {flagNum : ℕ} (hflag : flagNum < localsSize) :
    p.stackTop addr cpu ≤ p.flagAddr addr flagNum cpu ∧
      p.flagAddr addr flagNum cpu < p.stackTop addr cpu + localsSize := by
  rw [stackTop, flagAddr, bspStackSize]
  rw [localsSize] at hflag ⊢
  omega

theorem waitFlags_subset {flagNum : ℕ} (hflag : flagNum < localsSize) :
    p.waitFlags addr flagNum ⊆ p.writtenLocals addr := by
  rintro a (⟨cpu, hcpu, rfl⟩ | ⟨cpu, hcpu, rfl⟩)
  · exact mem_writtenLocals.mpr ⟨cpu, hcpu.1, flagAddr_mem hflag⟩
  · exact mem_writtenLocals.mpr ⟨cpu, hcpu, flagAddr_mem hflag⟩

/-- The stack of a CPU is everything from the one before it to the next one. -/
theorem mem_stackSlot : a ∈ p.stackSlot addr cpu ↔
    (if cpu = 0 then addr + p.stacksOffset ≤ a
      else addr + p.stacksOffset + bspStackSize + (cpu - 1) * apStackSize ≤ a) ∧
    a < addr + p.stacksOffset + bspStackSize + cpu * apStackSize := by
  rw [stackSlot, stackTop_add, Set.mem_Ico, slotBottom]
  split_ifs <;> omega

/-- The areas of all CPUs lie in the program with a stack for each of them. -/
theorem perCpuBytes_subset : p.perCpuBytes addr ⊆ Set.Ico addr (addr + p.fullSize) := by
  have hlocals : p.writtenLocals addr ⊆ Set.Ico addr (addr + p.fullSize) := by
    intro a ha
    obtain ⟨cpu, hcpu, hlo, hhi⟩ := mem_writtenLocals.mp ha
    have hmul : cpu * apStackSize ≤ (p.numAvailableCpus - 1) * apStackSize :=
      Nat.mul_le_mul_right _ (by omega)
    rw [stackTop_add] at hhi
    rw [stackTop] at hlo
    rw [Set.mem_Ico, fullSize]
    omega
  rintro a (((⟨cpu, hcpu, ha⟩ | ha) | ha) | ha)
  · have hmul : cpu * apStackSize ≤ (p.numAvailableCpus - 1) * apStackSize :=
      Nat.mul_le_mul_right _ (by have := hcpu.1; omega)
    obtain ⟨hlo, hhi⟩ := mem_stackSlot.mp ha
    rw [Set.mem_Ico, fullSize]
    split_ifs at hlo <;> omega
  · exact hlocals ha
  · exact hlocals (waitFlags_subset (by decide) ha)
  · exact hlocals (waitFlags_subset (by decide) ha)

/-- With every CPU enabled nothing of it is left out. -/
theorem subset_of_enabled (h : ∀ cpu < p.numAvailableCpus, p.enabled cpu = true) :
    Set.Ico addr (addr + p.fullSize) ⊆ p.imageBytes addr ∪ p.perCpuBytes addr := by
  rintro a ⟨hlo, hhi⟩
  obtain himage | hstacks := Nat.lt_or_ge a (addr + p.stacksOffset)
  · exact .inl ⟨hlo, himage⟩
  refine .inr (.inl (.inl (.inl ?_)))
  have hpos := p.numAvailableCpus_pos
  obtain hbsp | hap := Nat.lt_or_ge a (addr + p.stacksOffset + bspStackSize)
  · refine ⟨0, ⟨hpos, p.bsp_enabled⟩, mem_stackSlot.mpr ⟨?_, ?_⟩⟩
    · rwa [if_pos rfl]
    · omega
  · -- the stack of an AP
    obtain ⟨d, rfl⟩ := Nat.exists_eq_add_of_le hap
    rw [fullSize] at hhi
    have hd : d / apStackSize < p.numAvailableCpus - 1 :=
      Nat.div_lt_of_lt_mul (by rw [Nat.mul_comm]; omega)
    have hdiv := Nat.div_add_mod d apStackSize
    have hmod := Nat.mod_lt d (show 0 < apStackSize by decide)
    rw [Nat.mul_comm] at hdiv
    refine ⟨d / apStackSize + 1, ⟨by omega, h _ (by omega)⟩, mem_stackSlot.mpr ⟨?_, ?_⟩⟩
    · rw [if_neg (Nat.succ_ne_zero _), Nat.add_sub_cancel]
      omega
    · rw [Nat.succ_mul]
      omega

/-! ### The size of the program -/

theorem numEnabledCpus_le (p : Program arch) : p.numEnabledCpus ≤ p.numAvailableCpus :=
  List.countP_le_length.trans_eq List.length_range

/-- `program_size` is too small unless every CPU is enabled. -/
theorem fullSize_le_iff (p : Program arch) :
    p.fullSize ≤ p.programSize ↔ ∀ cpu < p.numAvailableCpus, p.enabled cpu = true := by
  have hle := p.numEnabledCpus_le
  have hpos := p.numAvailableCpus_pos
  have hcount : p.numEnabledCpus = p.numAvailableCpus ↔
      ∀ cpu < p.numAvailableCpus, p.enabled cpu = true := by
    have h : (List.range p.numAvailableCpus).countP p.enabled =
        (List.range p.numAvailableCpus).length ↔ _ := List.countP_eq_length
    rw [List.length_range] at h
    rw [numEnabledCpus, h]
    simp only [List.mem_range]
  rw [← hcount, fullSize, programSize]
  constructor
  · intro h
    have hmul : (p.numAvailableCpus - 1) * apStackSize ≤ (p.numEnabledCpus - 1) * apStackSize := by
      omega
    have hsub := Nat.le_of_mul_le_mul_right hmul (by decide)
    have hbsp : 0 < p.numEnabledCpus :=
      List.countP_pos_iff.mpr ⟨0, List.mem_range.mpr hpos, p.bsp_enabled⟩
    omega
  · intro h
    rw [h]

/-- The footprint holds the areas of the CPUs just if every CPU is enabled. The byte that tells is
the last one of the last CPU that is available, enabled or not. -/
theorem perCpuBytes_subset_footprint_iff :
    p.perCpuBytes addr ⊆ p.footprint addr ↔
      ∀ cpu < p.numAvailableCpus, p.enabled cpu = true := by
  rw [← p.fullSize_le_iff]
  constructor
  · intro hsub
    have hpos := p.numAvailableCpus_pos
    have hlast : addr + p.fullSize - 1 ∈ p.writtenLocals addr := by
      refine mem_writtenLocals.mpr ⟨p.numAvailableCpus - 1, by omega, ?_⟩
      rw [stackTop, fullSize, bspStackSize, localsSize]
      omega
    have hmem := (hsub (.inl (.inl (.inr hlast)))).2
    omega
  · intro hle
    exact perCpuBytes_subset.trans (Set.Ico_subset_Ico_right (by omega))

/-! ### The load addresses and the windows -/

variable {pmMap : List PmSegment} {lowerLimit upperLimit : ℕ}

theorem findLoadAddr_bounds {programSize : ℕ}
    (h : findLoadAddr arch programSize lowerLimit upperLimit pmMap = some addr) :
    lowerLimit ≤ addr ∧ addr < upperLimit := by
  induction pmMap with
  | nil => contradiction
  | cons seg pmMap ih =>
    rw [findLoadAddr] at h
    have hlower : lowerLimit ≤ if pageAddress arch seg.start.toNat < lowerLimit then lowerLimit
        else pageAddress arch seg.start.toNat := by split <;> omega
    generalize (if pageAddress arch seg.start.toNat < lowerLimit then lowerLimit
      else pageAddress arch seg.start.toNat) = tryStart at h hlower
    split_ifs at h with hlimit hupper hend
    · exact ih h
    · exact ih h
    · obtain rfl := Option.some.inj h
      exact ⟨hlower, Nat.lt_of_not_le hupper⟩

/-- A load address lies between the limits. Nothing is said about where the program ends. -/
theorem setLoadAddr_bounds (h : p.setLoadAddr pmMap lowerLimit upperLimit = some addr) :
    lowerLimit ≤ addr ∧ addr < upperLimit := by
  rw [setLoadAddr] at h
  split at h
  · next hcurrent =>
    obtain rfl := Option.some.inj h
    obtain ⟨hlower, hupper, -⟩ := hcurrent
    refine ⟨hlower, ?_⟩
    have hsize : p.programSize ≤ p.stacksOffset + stacksSize := by
      have hmul : (p.numEnabledCpus - 1) * apStackSize ≤ maxAps * apStackSize :=
        Nat.mul_le_mul_right _ (by
          have := p.numEnabledCpus_le
          have := p.numAvailableCpus_le
          omega)
      rw [programSize, stacksSize]
      omega
    have hpos : 0 < p.programSize := by
      rw [programSize, bspStackSize]
      omega
    rw [Nat.mod_eq_of_lt (by have := p.fits; omega)] at hupper
    omega
  · exact findLoadAddr_bounds h

/-- A page from `LOW_LOAD_LIMIT` on is in one of the windows behind the first. -/
theorem exists_windowBound {lowLoadLimit page : ℕ} (h : lowLoadLimit >>> pageShift ≤ page) :
    ∃ k > 0, windowBound lowLoadLimit k ≤ page ∧ page < windowBound lowLoadLimit (k + 1) := by
  have hbound : ∀ k, windowBound lowLoadLimit (k + 2) =
      (lowLoadLimit >>> pageShift + 262144) / 262144 * 262144 + k * 262144 := fun k => rfl
  obtain hlt | hge := Nat.lt_or_ge page (windowBound lowLoadLimit 2)
  · exact ⟨1, Nat.one_pos, h, hlt⟩
  · obtain ⟨d, rfl⟩ := Nat.exists_eq_add_of_le hge
    refine ⟨d / 262144 + 2, Nat.succ_pos _, ?_, ?_⟩
    · rw [hbound, hbound]
      omega
    · rw [hbound, show d / 262144 + 2 + 1 = d / 262144 + 1 + 2 by omega, hbound]
      omega

theorem le_windowBound {lowLoadLimit k : ℕ} (hk : k > 0) :
    lowLoadLimit >>> pageShift ≤ windowBound lowLoadLimit k := by
  match k with
  | 1 => exact Nat.le_refl _
  | k + 2 =>
    have hbound : windowBound lowLoadLimit (k + 2) =
      (lowLoadLimit >>> pageShift + 262144) / 262144 * 262144 + k * 262144 := rfl
    omega

/-! ### The footprint -/

/-- **Footprint.** The per-CPU areas stay in the footprint and the memory under test is left
alone, just if every CPU that is available is enabled, and no page is tested that the program at
its low address reaches into from below `LOW_LOAD_LIMIT`.

The two hypotheses name the addresses that `set_load_addr` has found. The first condition is about
the areas of the disabled CPUs, which lie above what has been looked for, the second about a low
address so close to the limit that the program runs across it: the windows go by the limit, and so
the pages above are tested while the program is there. -/
theorem safe_iff {limits : PageLimits} {lowLoadLimit highLoadLimit lowLoadAddr highLoadAddr : ℕ}
    (hlow : p.setLoadAddr pmMap 0x1000 lowLoadLimit = some lowLoadAddr)
    (hhigh : p.setLoadAddr pmMap lowLoadLimit highLoadLimit = some highLoadAddr) :
    p.Safe limits pmMap lowLoadLimit lowLoadAddr highLoadAddr ↔
      (∀ cpu < p.numAvailableCpus, p.enabled cpu = true) ∧
      ∀ page ∈ testedPages limits pmMap, lowLoadLimit >>> pageShift ≤ page →
        lowLoadAddr + p.fullSize ≤ page * pageSize := by
  have hlowBounds := setLoadAddr_bounds hlow
  have hhighBounds := setLoadAddr_bounds hhigh
  have hpage : lowLoadLimit >>> pageShift = lowLoadLimit / 4096 :=
    Nat.shiftRight_eq_div_pow lowLoadLimit 12
  constructor
  · intro hsafe
    have henabled := perCpuBytes_subset_footprint_iff.mp hsafe.low
    refine ⟨henabled, fun page htested hle => ?_⟩
    by_contra hreach
    obtain ⟨k, hk, hlo, hhi⟩ := exists_windowBound hle
    have hdisjoint := hsafe.spares k page ⟨htested, hlo, hhi⟩
    rw [if_pos hk] at hdisjoint
    -- the first byte of the page that the program has reached
    rw [pageSize_eq] at hreach
    have hbytes : max lowLoadAddr (page * 4096) ∈ pageBytes page := by
      rw [pageBytes, pageSize_eq, Set.mem_Ico]
      omega
    have hprogram : max lowLoadAddr (page * 4096) ∈
        Set.Ico lowLoadAddr (lowLoadAddr + p.fullSize) := by
      have hpos : 0 < p.fullSize := by
        rw [fullSize, bspStackSize]
        omega
      rw [Set.mem_Ico]
      omega
    exact Set.disjoint_left.mp hdisjoint (subset_of_enabled henabled hprogram) hbytes
  · rintro ⟨henabled, hclear⟩
    refine ⟨perCpuBytes_subset_footprint_iff.mpr henabled,
      perCpuBytes_subset_footprint_iff.mpr henabled, fun k page hpages => ?_⟩
    have hprogram : ∀ addr, p.imageBytes addr ∪ p.perCpuBytes addr ⊆
        Set.Ico addr (addr + p.fullSize) := by
      intro addr
      refine Set.union_subset (Set.Ico_subset_Ico_right ?_) perCpuBytes_subset
      rw [fullSize]
      omega
    refine Set.disjoint_left.mpr fun a ha hbytes => ?_
    obtain ⟨hfrom, hto⟩ := hprogram _ ha
    obtain ⟨htested, hlo, hhi⟩ := hpages
    rw [pageBytes, pageSize_eq, Set.mem_Ico] at hbytes
    split_ifs at hfrom hto with hk
    · have hend := hclear page htested ((le_windowBound hk).trans hlo)
      rw [pageSize_eq] at hend
      omega
    · -- the program runs at its high address, and the window ends below it
      obtain rfl : k = 0 := by omega
      change page < lowLoadLimit >>> pageShift at hhi
      omega

/-- A machine with three CPUs. -/
def threeCpuProgram (enabled : ℕ → Bool) (henabled : enabled 0 = true) : Program .b64 where
  start := 0x10000
  stacksOffset := 0x30000
  numAvailableCpus := 3
  enabled := enabled
  numAvailableCpus_pos := by decide
  numAvailableCpus_le := by decide
  bsp_enabled := henabled
  fits := by decide

theorem safe_iff_allEnabled :
    (threeCpuProgram (fun _ => true) rfl).Safe ⟨0, 0x8000⟩ [⟨0, 0x9f⟩, ⟨0x100, 0x8000⟩] lowLoadLimit
        0x10000 0x400000 ↔
      (∀ cpu < 3, true = true) ∧
      ∀ page ∈ testedPages ⟨0, 0x8000⟩ [⟨0, 0x9f⟩, ⟨0x100, 0x8000⟩],
        lowLoadLimit >>> pageShift ≤ page → 0x10000 + 0x35000 ≤ page * pageSize :=
  safe_iff (by decide) (show (threeCpuProgram (fun _ => true) rfl).setLoadAddr
    [⟨0, 0x9f⟩, ⟨0x100, 0x8000⟩] lowLoadLimit (vmPinnedSize <<< pageShift) = some 0x400000 by
      decide)

/-- CPU 1 is not selected: the stack of CPU 2 lies behind the footprint. -/
theorem not_safe_cpu1Disabled :
    ¬∀ (p : Program .b64) (limits : PageLimits) (pmMap : List PmSegment)
      (lowLoadAddr highLoadAddr : ℕ),
      p.setLoadAddr pmMap 0x1000 lowLoadLimit = some lowLoadAddr →
      p.setLoadAddr pmMap lowLoadLimit (vmPinnedSize <<< pageShift) = some highLoadAddr →
      p.Safe limits pmMap lowLoadLimit lowLoadAddr highLoadAddr := by
  intro h
  have hsafe := h (threeCpuProgram (fun cpu => cpu ≠ 1) rfl) ⟨0, 0x8000⟩
    [⟨0, 0x9f⟩, ⟨0x100, 0x8000⟩] 0x10000 0x400000 (by decide) (by decide)
  have hslot : 0x10000 + 0x30000 + 0x4000 + 0x800 ∈
      (threeCpuProgram (fun cpu => cpu ≠ 1) rfl).perCpuBytes 0x10000 :=
    .inl (.inl (.inl ⟨2, ⟨by decide, rfl⟩, by decide, by decide⟩))
  exact absurd (hsafe.low hslot).2 (by decide)

end Program

end Memtest
