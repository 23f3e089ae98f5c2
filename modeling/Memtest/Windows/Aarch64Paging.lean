import Memtest.Pmem.Sanitize
import Mathlib.Logic.Function.Basic

/-!
# Page tables on ARM64 (`system/aarch64/vmem.c`)

All memory is mapped one to one, in blocks of 1GB and 2MB, with tables of three levels: the top
table `ttbr0_table`, level 1 tables of 512GB each and level 2 tables of 1GB each. The tables of the
lower levels come from two pools, and the first mapping of a block wins.

After each relocation of the program `paging_init` builds the tables from scratch: from a copy it
took of the boot information, and from the device regions that `map_region` has recorded.

A pool is the list of its tables in use: a table that is taken is cleared first, and no other table
of the pool is ever read. A table descriptor holds the number of the table in its pool, which goes
with the address the pool is moved to. Addresses are natural numbers where the source has excluded
that the 64-bit arithmetic wraps.
-/

namespace Memtest.Aarch64

/-- `BLOCK_2M`. -/
def block2M : ℕ := 1 <<< 21

/-- `BLOCK_1G`. -/
def block1G : ℕ := 1 <<< 30

/-- `NUM_L1_TABLES`. -/
def numL1Tables : ℕ := 8

/-- `NUM_L2_TABLES`. -/
def numL2Tables : ℕ := 128

/-- `MAX_DEVICE_REGIONS`. -/
def maxDeviceRegions : ℕ := 64

/-! ### Descriptors -/

/-- `PTE_TYPE_BLOCK`. -/
def pteTypeBlock : BitVec 64 := 0x1

/-- `PTE_ADDR_MASK`. -/
def pteAddrMask : BitVec 64 := 0x0000FFFFFFFFF000

/-- `PTE_ATTRINDX`. -/
def pteAttrindx (idx : BitVec 64) : BitVec 64 := idx <<< 2

/-- `PTE_SH_INNER`. -/
def pteShInner : BitVec 64 := 3 <<< 8

/-- `PTE_AF`. -/
def pteAf : BitVec 64 := 1 <<< 10

/-- `PTE_PXN`. -/
def ptePxn : BitVec 64 := 1 <<< 53

/-- `PTE_UXN`. -/
def pteUxn : BitVec 64 := 1 <<< 54

/-- The three sets of attributes that blocks are mapped with. -/
inductive Attrs
  | normal
  | device
  | normalNc
  deriving DecidableEq, Repr

/-- `PTE_ATTR_NORMAL`, `PTE_ATTR_DEVICE` and `PTE_ATTR_NORMAL_NC`. -/
def Attrs.pte : Attrs → BitVec 64
  | normal => pteAttrindx 0 ||| pteShInner ||| pteAf ||| pteUxn
  | device => pteAttrindx 1 ||| pteAf ||| ptePxn ||| pteUxn
  | normalNc => pteAttrindx 2 ||| pteShInner ||| pteAf ||| ptePxn ||| pteUxn

/-- `addr | attrs | PTE_TYPE_BLOCK`. -/
def blockDescriptor (addr : ℕ) (attrs : Attrs) : BitVec 64 :=
  BitVec.ofNat 64 addr ||| attrs.pte ||| pteTypeBlock

/-- The address of the block of `2 ^ shift` bytes that a descriptor maps. -/
def outputAddr (shift : ℕ) (descriptor : BitVec 64) : ℕ :=
  (descriptor &&& pteAddrMask).toNat / 2 ^ shift * 2 ^ shift

/-- The lower and upper attributes of a block descriptor. -/
def blockAttrs (descriptor : BitVec 64) : BitVec 64 :=
  descriptor &&& ~~~(pteAddrMask ||| 3)

/-- An entry of a level 1 table. -/
inductive L1Entry
  | invalid
  | table (l2Table : ℕ)
  | block (descriptor : BitVec 64)
  deriving DecidableEq, Repr

/-! ### Tables -/

/-- The tables of a pool that are in use. -/
abbrev Pool (ε : Type*) := List (ℕ → ε)

namespace Pool

variable {ε : Type*} (empty : ε)

/-- An entry of a table. -/
def entry (pool : Pool ε) (table i : ℕ) : ε := (pool.getD table fun _ => empty) i

/-- Writes an entry of a table. -/
def setEntry (pool : Pool ε) (table i : ℕ) (e : ε) : Pool ε :=
  pool.set table (Function.update (pool.getD table fun _ => empty) i e)

/-- Takes one more table, with all entries cleared. -/
def alloc (pool : Pool ε) : Pool ε := pool ++ [fun _ => empty]

end Pool

/-- `ttbr0_table` and the two pools. -/
structure PageTables where
  ttbr0Table : ℕ → Option ℕ
  l1Tables : Pool L1Entry
  l2Tables : Pool (Option (BitVec 64))

namespace PageTables

/-- The tables as `paging_init` clears them. -/
def cleared : PageTables := ⟨fun _ => none, [], []⟩

variable (t : PageTables)

/-- An entry of a level 1 table. -/
def l1Entry (table i : ℕ) : L1Entry := t.l1Tables.entry .invalid table i

/-- An entry of a level 2 table. -/
def l2Entry (table i : ℕ) : Option (BitVec 64) := t.l2Tables.entry none table i

/-- Writes an entry of a level 1 table. -/
def setL1Entry (table i : ℕ) (e : L1Entry) : PageTables :=
  { t with l1Tables := t.l1Tables.setEntry .invalid table i e }

/-- Writes an entry of a level 2 table. -/
def setL2Entry (table i : ℕ) (descriptor : BitVec 64) : PageTables :=
  { t with l2Tables := t.l2Tables.setEntry none table i (some descriptor) }

/-- Takes one more level 1 table for the entry `i` of the top table. -/
def addL1Table (i : ℕ) : PageTables :=
  { t with
    ttbr0Table := Function.update t.ttbr0Table i (some t.l1Tables.length)
    l1Tables := t.l1Tables.alloc .invalid }

/-- Takes one more level 2 table for an entry of a level 1 table. -/
def addL2Table (l1Table i : ℕ) : PageTables :=
  { t.setL1Entry l1Table i (.table t.l2Tables.length) with l2Tables := t.l2Tables.alloc none }

/-- `get_l1_table` for the entry `i` of the top table, with `alloc_l1_table`. -/
def getL1Table (i : ℕ) : PageTables × Option ℕ :=
  match t.ttbr0Table i with
  | some table => (t, some table)
  | none =>
      if t.l1Tables.length ≥ numL1Tables then (t, none)
      else (t.addL1Table i, some t.l1Tables.length)

/-- `get_l2_table` for an entry of a level 1 table, with `alloc_l2_table`. -/
def getL2Table (l1Table i : ℕ) : PageTables × Option ℕ :=
  match t.l1Entry l1Table i with
  | .block _ => (t, none)
  | .table table => (t, some table)
  | .invalid =>
      if t.l2Tables.length ≥ numL2Tables then (t, none)
      else (t.addL2Table l1Table i, some t.l2Tables.length)

end PageTables

/-- The last part of the loop in `map_range`, for an address that no 1GB block maps. The result is
the next address, if there was a table for this one. -/
def mapSmallBlock (attrs : Attrs) (addr l1Table : ℕ) (t : PageTables) : PageTables × Option ℕ :=
  match t.getL2Table l1Table (addr / 2 ^ 30 % 512) with
  | (t, none) => (t, none)
  | (t, some l2Table) =>
      (match t.l2Entry l2Table (addr / 2 ^ 21 % 512) with
        | some _ => t
        | none => t.setL2Entry l2Table (addr / 2 ^ 21 % 512) (blockDescriptor addr attrs),
        some (addr + block2M))

/-- The loop body in `map_range` with the level 1 table found. -/
def mapBlock (attrs : Attrs) (stop addr l1Table : ℕ) (t : PageTables) : PageTables × Option ℕ :=
  match t.l1Entry l1Table (addr / 2 ^ 30 % 512) with
  | .block _ => (t, some (addr + block2M))
  | .table _ => mapSmallBlock attrs addr l1Table t
  | .invalid =>
      if addr % block1G = 0 ∧ stop - addr ≥ block1G then
        (t.setL1Entry l1Table (addr / 2 ^ 30 % 512) (.block (blockDescriptor addr attrs)),
          some (addr + block1G))
      else mapSmallBlock attrs addr l1Table t

/-- The loop body in `map_range`. -/
def mapStep (attrs : Attrs) (stop addr : ℕ) (t : PageTables) : PageTables × Option ℕ :=
  match t.getL1Table (addr / 2 ^ 39 % 512) with
  | (t, none) => (t, none)
  | (t, some l1Table) => mapBlock attrs stop addr l1Table t

/-- The loop in `map_range`, with so many 2MB blocks left at most. -/
def mapLoop (attrs : Attrs) (stop : ℕ) : ℕ → ℕ → PageTables → PageTables × Bool
  | 0, _, t => (t, true)
  | left + 1, addr, t =>
      if addr < stop then
        match mapStep attrs stop addr t with
        | (t, none) => (t, false)
        | (t, some next) => mapLoop attrs stop left next t
      else (t, true)

/-- The arguments of `map_range`. -/
structure Range where
  start : ℕ
  stop : ℕ
  attrs : Attrs
  deriving DecidableEq, Repr

/-- The number of the block a range starts in. -/
def Range.first (r : Range) : ℕ := r.start / block2M

/-- The number of the block behind the last one of a range. -/
def Range.last (r : Range) : ℕ := (r.stop + block2M - 1) / block2M

/-- `map_range`. -/
def mapRange (r : Range) (t : PageTables) : PageTables × Bool :=
  if r.start > r.stop ∨ r.stop > 2 ^ 48 then (t, false)
  else mapLoop r.attrs (r.last * block2M) (r.last - r.first) (r.first * block2M) t

/-- The tables after some calls of `map_range`. -/
def mapRanges (ranges : List Range) (t : PageTables) : PageTables :=
  ranges.foldl (fun t r => (mapRange r t).1) t

/-! ### What the tables mean -/

/-- The output address and the attributes that the tables give for a 2MB block, if it is valid. -/
def PageTables.translate (t : PageTables) (n : ℕ) : Option (ℕ × BitVec 64) :=
  (t.ttbr0Table (n / 262144)).bind fun l1Table =>
    match t.l1Entry l1Table (n / 512 % 512) with
    | .invalid => none
    | .block descriptor =>
        some (outputAddr 30 descriptor + n % 512 * block2M, blockAttrs descriptor)
    | .table l2Table =>
        (t.l2Entry l2Table (n % 512)).map fun descriptor =>
          (outputAddr 21 descriptor, blockAttrs descriptor)

/-! ### Boot information and device regions -/

/-- The boot params that `paging_init` reads. -/
structure BootParams where
  origVideoIsVga : BitVec 8
  lfbBase : BitVec 32
  lfbHeight : BitVec 16
  lfbLinelength : BitVec 16
  capabilities : BitVec 32
  extLfbBase : BitVec 32
  e820Entries : BitVec 8
  cmdLinePtr : BitVec 32
  cmdLineSize : BitVec 32
  e820Map : ℕ → E820Entry

/-- `VIDEO_TYPE_EFI`. -/
def videoTypeEfi : BitVec 8 := 0x70

/-- `LFB_CAPABILITY_64BIT_BASE`. -/
def lfbCapability64BitBase : BitVec 32 := 1 <<< 1

/-- The copy of the boot information. -/
structure BootInfo where
  e820Copy : List E820Entry
  lfbStart : BitVec 64
  lfbEnd : BitVec 64
  cmdLineStart : BitVec 64
  cmdLineEnd : BitVec 64

namespace BootParams

variable (bp : BootParams)

/-- `lfb_start` for an EFI frame buffer. -/
def efiLfbStart : BitVec 64 :=
  if bp.capabilities &&& lfbCapability64BitBase ≠ 0 then
    bp.lfbBase.setWidth 64 ||| bp.extLfbBase.setWidth 64 <<< 32
  else bp.lfbBase.setWidth 64

/-- The snapshot that `paging_init` takes the first time it is called. -/
def snapshot : BootInfo where
  lfbStart := if bp.origVideoIsVga = videoTypeEfi then bp.efiLfbStart else 0
  lfbEnd :=
    if bp.origVideoIsVga = videoTypeEfi then
      bp.efiLfbStart + bp.lfbLinelength.setWidth 64 * bp.lfbHeight.setWidth 64
    else 0
  e820Copy := (List.range (min bp.e820Entries.toNat e820MapSize)).map bp.e820Map
  cmdLineStart := if bp.cmdLinePtr ≠ 0 then bp.cmdLinePtr.setWidth 64 else 0
  cmdLineEnd :=
    if bp.cmdLinePtr ≠ 0 then bp.cmdLinePtr.setWidth 64 + bp.cmdLineSize.setWidth 64 else 0

end BootParams

/-- The ranges that `paging_init` maps for the boot information, in order. -/
def BootInfo.ranges (info : BootInfo) : List Range :=
  (if info.lfbEnd ≠ 0 then [⟨info.lfbStart.toNat, info.lfbEnd.toNat, .normalNc⟩] else []) ++
  ((info.e820Copy.filter fun e => e.type = e820Ram ∨ e.type = e820Acpi).map fun e =>
    ⟨e.addr.toNat, e.endAddr.toNat, .normal⟩) ++
  (if info.cmdLineStart ≠ 0 then
    [⟨info.cmdLineStart.toNat, info.cmdLineEnd.toNat, .normal⟩] else [])

/-- `device_region_t`. -/
structure DeviceRegion where
  start : ℕ
  stop : ℕ
  deriving DecidableEq, Repr

/-- The range that maps a device region. -/
def DeviceRegion.range (region : DeviceRegion) : Range := ⟨region.start, region.stop, .device⟩

/-- The test of `map_region` that leaves out a region. -/
def DeviceRegion.Contains (outer inner : DeviceRegion) : Prop :=
  inner.start ≥ outer.start ∧ inner.stop ≤ outer.stop

instance (outer inner : DeviceRegion) : Decidable (outer.Contains inner) :=
  inferInstanceAs (Decidable (_ ∧ _))

/-- The variables of the module. -/
structure State where
  tables : PageTables
  deviceRegions : List DeviceRegion
  bootInfo : Option BootInfo
  pagingIncomplete : Bool

namespace State

/-- The variables of the program image before `paging_init` is called. -/
def initial : State := ⟨.cleared, [], none, false⟩

/-- `paging_incomplete |= !map_range(...)`. -/
def mapOrNote (s : State) (r : Range) : State :=
  { s with
    tables := (mapRange r s.tables).1
    pagingIncomplete := s.pagingIncomplete || !(mapRange r s.tables).2 }

/-- `paging_init`. -/
def pagingInit (bp : BootParams) (s : State) : State :=
  let info := s.bootInfo.getD bp.snapshot
  (info.ranges ++ s.deviceRegions.map DeviceRegion.range).foldl mapOrNote
    { s with bootInfo := some info, tables := .cleared }

/-- `device_region_t` for a region, at the granularity of the blocks. -/
def deviceRegion (baseAddr size : BitVec 64) : DeviceRegion where
  start := baseAddr.toNat / block2M * block2M
  stop := (baseAddr + size + (BitVec.ofNat 64 block2M - 1)).toNat / block2M * block2M

/-- The part of `map_region` that records the region, if there is room for it. -/
def recordRegion (region : DeviceRegion) (s : State) : Option State :=
  if ∃ r ∈ s.deviceRegions, r.Contains region then some s
  else if s.deviceRegions.length ≥ maxDeviceRegions then none
  else some { s with deviceRegions := s.deviceRegions ++ [region] }

/-- `map_region`: the state afterwards, and whether the call comes to return `base_addr`. A size
of 0 counts as 1. A region that wraps around or that has no room in the list is refused before the
tables are changed; where the tables are used up, the region stays in the list. -/
def mapRegion (baseAddr size : BitVec 64) (s : State) : State × Bool :=
  let size := if size = 0 then 1 else size
  if baseAddr + size < baseAddr then (s, false)
  else
    match s.recordRegion (deviceRegion baseAddr size) with
    | none => (s, false)
    | some s =>
        let r := mapRange ⟨baseAddr.toNat, (baseAddr + size).toNat, .device⟩ s.tables
        ({ s with tables := r.1 }, r.2)

end State

/-- The calls that change the tables. -/
inductive Call
  | pagingInit (bp : BootParams)
  | mapRegion (baseAddr size : BitVec 64)

/-- A call that is successful. -/
def step : Call → State → Option State
  | .pagingInit bp, s => some (s.pagingInit bp)
  | .mapRegion baseAddr size, s =>
      if (s.mapRegion baseAddr size).2 = true then some (s.mapRegion baseAddr size).1 else none

end Memtest.Aarch64
