import Mathlib.Tactic.SplitIfs
import Memtest.Lib.LittleEndian
import Memtest.Lib.Reads
import Memtest.Pmem.Heap
import Memtest.Smp.Srat

/-!
# The ACPI tables (`system/acpi.c`)

`find_acpi_table` goes through the entries of the root table, the XSDT or the RSDT, up to the first
one that is the address of a table with a given signature, and `parse_fadt` takes some fields from
another table. Both tables have their length in the header, and a checksum over that many bytes.

The loop goes on as long as an entry begins inside the table, so with a length that is not a whole
number of entries it reads beyond the end, unless it has found an entry before. `parse_fadt` only
checks for some of its fields that they begin inside the table, and takes the PM timer block
without a check.

An address is a number here, and a pointer wraps around at the end of the address space.
`map_region` is a parameter: whether it maps the region that is asked for. What is read through the
pointer that it returns is told by the addresses that have been mapped.
-/

namespace Memtest

/-- What is read from the machine: its memory, whether a call of `map_region` succeeds, and
`acpi_config.rsdp_addr`. -/
structure AcpiHw where
  mem : ℕ → UInt8
  mapRegion : ℕ → ℕ → Bool
  rsdpAddr : ℕ

/-- The fields of `acpi_config` that the parsing of tables changes. -/
structure AcpiConfig where
  pmAddr : ℕ
  armBootArch : ℕ
  verMaj : ℕ
  verMin : ℕ
  pmIsIo : Bool
  deriving DecidableEq, Repr

/-- A root table, as `find_acpi_table` takes it: its address, its signature, and the size of its
entries. -/
structure RootTable where
  addr : ℕ
  signature : ℕ
  entrySize : ℕ

/-- `RSDTSignature`. -/
def rsdtSignature : ℕ := 0x54445352

/-- `XSDTSignature`. -/
def xsdtSignature : ℕ := 0x54445358

/-- `FADTSignature`. -/
def fadtSignature : ℕ := 0x50434146

/-- `FADT_PM_TMR_BLK_OFFSET`. -/
def fadtPmTmrBlkOffset : ℕ := 76

/-- `FADT_ARM_BOOT_ARCH_OFFSET`. -/
def fadtArmBootArchOffset : ℕ := 129

/-- `FADT_MINOR_REV_OFFSET`. -/
def fadtMinorRevOffset : ℕ := 131

/-- `FADT_X_PM_TMR_BLK_OFFSET`. -/
def fadtXPmTmrBlkOffset : ℕ := 208

/-- `sizeof(acpi_gen_addr_struct)`. -/
def acpiGenAddrSize : ℕ := 12

namespace AcpiHw

variable (build : SmpBuild) (hw : AcpiHw)

/-! ### The code -/

/-- The bytes at a pointer. -/
def cells (count addr : ℕ) : List ℕ :=
  (List.range count).map fun i => (addr + i) % 2 ^ build.arch.bits

/-- A number of `count` bytes. -/
def load (count addr : ℕ) : Reads ℕ ℕ :=
  ⟨LittleEndian.value ((cells build count addr).map hw.mem), cells build count addr⟩

/-- `acpi_checksum`. Its count goes down to 0 from the length, which is taken for an `int`. -/
def acpiChecksum (addr length : ℕ) : Reads ℕ UInt8 :=
  ⟨((cells build length addr).map hw.mem).sum, cells build length addr⟩

/-- `map_region` does not return NULL. -/
def maps (addr size : ℕ) : Bool := addr ≠ 0 && hw.mapRegion addr size

/-- An entry with this address is the one that is looked for. -/
def carries (tableSignature addr : ℕ) : Bool :=
  hw.maps addr 4 && (hw.load build 4 addr).value = tableSignature

/-- The loops of `find_acpi_table`: the reads through `tab_ptr` and the result; `none` if they do
not end in the given number of steps. -/
def scan (tableSignature entrySize tabEnd : ℕ) : ℕ → ℕ → Reads ℕ (Option ℕ)
  | 0, _ => pure none
  | fuel + 1, tabPtr =>
      if tabPtr < tabEnd then do
        let entry ← hw.load build entrySize tabPtr
        let addr := entry % 2 ^ build.arch.bits
        let tabPtr := (tabPtr + entrySize) % 2 ^ build.arch.bits
        if hw.carries build tableSignature addr then pure (some addr)
        else scan tableSignature entrySize tabEnd fuel tabPtr
      else pure (some 0)

/-- The branches of `find_acpi_table`, for one of the root tables: the reads through `rt` and the
result. -/
def findInRoot (rt : RootTable) (tableSignature fuel : ℕ) : Reads ℕ (Option ℕ) :=
  if hw.maps rt.addr rsdtHeaderSize then do
    let signature ← hw.load build 4 rt.addr
    if signature ≠ rt.signature then pure (some 0)
    else do
      let length ← hw.load build 4 (rt.addr + 4)
      if hw.maps rt.addr length then do
        let sum ← hw.acpiChecksum build rt.addr length
        if sum ≠ 0 then pure (some 0)
        else
          hw.scan build tableSignature rt.entrySize ((rt.addr + length) % 2 ^ build.arch.bits) fuel
            ((rt.addr + rsdtHeaderSize) % 2 ^ build.arch.bits)
      else pure (some 0)
  else pure (some 0)

/-- `rp->revision`. -/
def rsdpRevision : ℕ := (hw.load build 1 (hw.rsdpAddr + 15)).value

/-- The root table of `find_acpi_table`. -/
def rootTable : RootTable :=
  if hw.rsdpRevision build ≥ 2 then
    { addr := (hw.load build 8 (hw.rsdpAddr + 24)).value % 2 ^ build.arch.bits
      signature := xsdtSignature
      entrySize := 8 }
  else
    { addr := (hw.load build 4 (hw.rsdpAddr + 16)).value
      signature := rsdtSignature
      entrySize := 4 }

/-- `find_acpi_table`: `acpi_config`, and the reads through `rt` with the result. -/
def findAcpiTable (config : AcpiConfig) (tableSignature fuel : ℕ) :
    AcpiConfig × Reads ℕ (Option ℕ) :=
  (if config.verMaj < hw.rsdpRevision build then { config with verMaj := hw.rsdpRevision build }
    else config,
  hw.findInRoot build (hw.rootTable build) tableSignature fuel)

/-- `fadt->length`. -/
def fadtLength (fadtAddr : ℕ) : ℕ := (hw.load build 4 (fadtAddr + 4)).value

/-- The minor revision in `parse_fadt`. -/
def fadtMinorRev (fadtAddr : ℕ) (config : AcpiConfig) : Reads ℕ AcpiConfig :=
  if hw.fadtLength build fadtAddr > fadtMinorRevOffset then do
    let minor ← hw.load build 1 (fadtAddr + fadtMinorRevOffset)
    pure { config with verMin := minor &&& 0xF }
  else pure config

/-- The PM timer block in `parse_fadt`. -/
def fadtPmTmr (fadtAddr : ℕ) (config : AcpiConfig) : Reads ℕ AcpiConfig := do
  let pm ← hw.load build 4 (fadtAddr + fadtPmTmrBlkOffset)
  pure { config with pmAddr := pm, pmIsIo := true }

/-- The ARM boot flags in `parse_fadt`. -/
def fadtArmBootArch (fadtAddr : ℕ) (config : AcpiConfig) : Reads ℕ AcpiConfig :=
  if build = .aarch64 ∧ hw.fadtLength build fadtAddr > fadtArmBootArchOffset + 1 then do
    let low ← hw.load build 1 (fadtAddr + fadtArmBootArchOffset)
    let high ← hw.load build 1 (fadtAddr + fadtArmBootArchOffset + 1)
    pure { config with armBootArch := low ||| high <<< 8 }
  else pure config

/-- The extended PM timer block in `parse_fadt`, which 64-bit builds look at when the table is
long enough. It replaces the timer found before if it has an address; its space is noted in any
case. The result of `map_region` is not checked, so the null pointer is read where the block
cannot be mapped. -/
def fadtXPmTmr (fadtAddr : ℕ) (config : AcpiConfig) : Reads ℕ AcpiConfig :=
  if build.arch = .b64 ∧ hw.fadtLength build fadtAddr > fadtXPmTmrBlkOffset then
    let block := (fadtAddr + fadtXPmTmrBlkOffset) % 2 ^ build.arch.bits
    let rt := if hw.maps block acpiGenAddrSize then block else 0
    do
      let space ← hw.load build 1 rt
      let config := { config with pmIsIo := space = 1 }
      let address ← hw.load build 8 (rt + 4)
      pure (if address ≠ 0 then { config with pmAddr := address } else config)
  else pure config

/-- The fields behind the header that `parse_fadt` stores, and the reads for them. -/
def fadtFields (fadtAddr : ℕ) (config : AcpiConfig) : Reads ℕ AcpiConfig := do
  let config ← hw.fadtMinorRev build fadtAddr config
  let config ← hw.fadtPmTmr build fadtAddr config
  let config ← hw.fadtArmBootArch build fadtAddr config
  hw.fadtXPmTmr build fadtAddr config

/-- `parse_fadt`: the result and `acpi_config`, and the reads for the fields behind the header. -/
def parseFadt (fadtAddr : ℕ) (config : AcpiConfig) : Reads ℕ (Bool × AcpiConfig) :=
  if fadtAddr = 0 ∨
      (hw.acpiChecksum build fadtAddr (hw.fadtLength build fadtAddr)).value ≠ 0 then
    pure (false, config)
  else do
    let config := { config with verMaj := (hw.load build 1 (fadtAddr + 8)).value }
    let config ← hw.fadtFields build fadtAddr config
    pure (true, config)

/-! ### The root table -/

/-- An address is that of a byte of a table. -/
def Inside (addr length a : ℕ) : Prop := addr ≤ a ∧ a < addr + length

/-- `rt->length`. -/
def rootLength (rt : RootTable) : ℕ := (hw.load build 4 (rt.addr + 4)).value

/-- The signature and the checksum of a root table are valid. -/
structure ValidRoot (rt : RootTable) : Prop where
  signature : (hw.load build 4 rt.addr).value = rt.signature
  checksum : (hw.acpiChecksum build rt.addr (hw.rootLength build rt)).value = 0

/-- How many whole entries a root table has. -/
def entryCount (rt : RootTable) : ℕ := (hw.rootLength build rt - rsdtHeaderSize) / rt.entrySize

/-- Where an entry is. -/
def entryAddr (rt : RootTable) (i : ℕ) : ℕ := rt.addr + rsdtHeaderSize + rt.entrySize * i

/-- An entry, which may be an address of 64 bits on any build. -/
def entryAt (rt : RootTable) (i : ℕ) : ℕ := (hw.load build rt.entrySize (entryAddr rt i)).value

/-- The target of an entry carries the signature. The entry has to be an address of the build and
a whole one inside the table, so this is what the entries mean and not what the loop makes of
them. -/
def Wanted (rt : RootTable) (tableSignature i : ℕ) : Prop :=
  i < hw.entryCount build rt ∧ hw.entryAt build rt i < 2 ^ build.arch.bits ∧
    hw.carries build tableSignature (hw.entryAt build rt i)

/-- The target of an entry carries the signature, if it is cut to the size of a pointer. -/
def Taken (rt : RootTable) (tableSignature i : ℕ) : Prop :=
  i < hw.entryCount build rt ∧
    hw.carries build tableSignature (hw.entryAt build rt i % 2 ^ build.arch.bits)

/-- The first entry that is wanted. -/
def FirstWanted (rt : RootTable) (tableSignature addr : ℕ) : Prop :=
  ∃ i, hw.Wanted build rt tableSignature i ∧ (∀ j < i, ¬hw.Wanted build rt tableSignature j) ∧
    addr = hw.entryAt build rt i

/-- What `find_acpi_table` is to return: the first entry that is wanted, or 0 if there is none. A
table that is not mapped has no entries. -/
def Finds (rt : RootTable) (tableSignature r : ℕ) : Prop :=
  if hw.maps rt.addr rsdtHeaderSize ∧ hw.maps rt.addr (hw.rootLength build rt) then
    hw.FirstWanted build rt tableSignature r ∨
      (∀ i, ¬hw.Wanted build rt tableSignature i) ∧ r = 0
  else r = 0

/-- `find_acpi_table` ends, with the right result, and only reads bytes of the root table. The
tables the entries point to are looked at by another function, and are not part of this. -/
def FindsInside (config : AcpiConfig) (tableSignature : ℕ) : Prop :=
  let rt := hw.rootTable build
  ∃ fuel r, (hw.findAcpiTable build config tableSignature fuel).2.value = some r ∧
    Reads.All (Inside rt.addr (hw.rootLength build rt))
      (hw.findAcpiTable build config tableSignature fuel).2 ∧
    hw.Finds build rt tableSignature r

/-- The entries end where the table does, or one is taken before. If the first one that is taken
is not an address of the build, then its low half stands in a later entry, and no entry in between
is wanted. -/
structure EntriesOk (rt : RootTable) (tableSignature : ℕ) : Prop where
  whole : (∃ i, hw.Taken build rt tableSignature i) ∨
    (hw.rootLength build rt - rsdtHeaderSize) % rt.entrySize = 0
  narrow : ∀ i, hw.Taken build rt tableSignature i →
    (∀ j < i, ¬hw.Taken build rt tableSignature j) → 2 ^ build.arch.bits ≤ hw.entryAt build rt i →
    ∃ k < hw.entryCount build rt, i < k ∧
      hw.entryAt build rt k = hw.entryAt build rt i % 2 ^ build.arch.bits ∧
      ∀ j, i < j → j < k → ¬hw.Wanted build rt tableSignature j

/-- A root table in front of the end of the address space is long enough for the length, and its
entries are as they should be. One that ends there has no entry that is wanted: the loop compares
pointers, and the end of such a table has wrapped to zero. -/
def RootOk (rt : RootTable) (tableSignature : ℕ) : Prop :=
  let length := hw.rootLength build rt
  hw.maps rt.addr rsdtHeaderSize → 8 ≤ length ∧ rt.addr + 8 ≤ 2 ^ build.arch.bits ∧
    (hw.maps rt.addr length →
      rt.addr + max length rsdtHeaderSize < 2 ^ build.arch.bits ∧
          hw.EntriesOk build rt tableSignature ∨
        rt.addr + length = 2 ^ build.arch.bits ∧ ∀ i, ¬hw.Wanted build rt tableSignature i)

/-! ### The FADT -/

/-- `parse_fadt` only reads bytes of the FADT for its fields. -/
def FadtInside (fadtAddr : ℕ) (config : AcpiConfig) : Prop :=
  Reads.All (Inside fadtAddr (hw.fadtLength build fadtAddr)) (hw.parseFadt build fadtAddr config)

/-- Where the last field of an FADT ends that is read. -/
def lastFieldEnd (length : ℕ) : ℕ :=
  if build.arch = .b64 ∧ length > fadtXPmTmrBlkOffset then fadtXPmTmrBlkOffset + acpiGenAddrSize
  else if length > fadtMinorRevOffset then fadtMinorRevOffset + 1
  else if build = .aarch64 ∧ length > fadtArmBootArchOffset + 1 then fadtArmBootArchOffset + 2
  else fadtPmTmrBlkOffset + 4

/-- The last field that is read ends inside the FADT, and in front of the end of the address
space. The extended PM timer block is mapped, if it is read. Which field is the last one depends
on the length and the build. -/
def FadtOk (fadtAddr : ℕ) : Prop :=
  let length := hw.fadtLength build fadtAddr
  fadtAddr ≠ 0 → lastFieldEnd build length ≤ length ∧
    fadtAddr + lastFieldEnd build length ≤ 2 ^ build.arch.bits ∧
    (build.arch = .b64 → length > fadtXPmTmrBlkOffset →
      hw.maps ((fadtAddr + fadtXPmTmrBlkOffset) % 2 ^ build.arch.bits) acpiGenAddrSize)

/-! ### Reads -/

section

variable {build : SmpBuild} {hw : AcpiHw} {P : ℕ → Prop} {lo off count : ℕ}

theorem cells_mod (count addr : ℕ) :
    cells build count (addr % 2 ^ build.arch.bits) = cells build count addr :=
  List.map_congr_left fun _ _ => Nat.mod_add_mod ..

/-- The bytes at an offset are in a table if and only if they end there, and in front of the end of
the address space. -/
theorem forall_cells_inside (len : ℕ) (hlo : 0 < lo) (hlt : lo < 2 ^ build.arch.bits)
    (hcount : 0 < count) (hoff : off < 2 ^ build.arch.bits) :
    (∀ a ∈ cells build count (lo + off), Inside lo len a) ↔
      off + count ≤ len ∧ lo + off + count ≤ 2 ^ build.arch.bits := by
  have hcell (i : ℕ) (hi : i < count) :
      (lo + off + i) % 2 ^ build.arch.bits ∈ cells build count (lo + off) :=
    List.mem_map.mpr ⟨i, List.mem_range.mpr hi, rfl⟩
  constructor
  · intro h
    have hend : lo + off + count ≤ 2 ^ build.arch.bits := by
      by_contra hwrap
      -- the first byte behind the end of the address space is in front of the table
      obtain hbelow | hbeyond := Nat.lt_or_ge (lo + off) (2 ^ build.arch.bits)
      · have hzero := h _ (hcell (2 ^ build.arch.bits - (lo + off)) (by omega))
        rw [Nat.add_sub_cancel' hbelow.le, Nat.mod_self] at hzero
        exact absurd hzero.1 (by omega)
      · have hfirst := h _ (hcell 0 hcount)
        rw [Nat.add_zero, Nat.mod_eq_sub_mod hbeyond, Nat.mod_eq_of_lt (by omega)] at hfirst
        have hle := hfirst.1
        omega
    have hlast := (h _ (hcell (count - 1) (by omega))).2
    rw [Nat.mod_eq_of_lt (by omega)] at hlast
    exact ⟨by omega, hend⟩
  · rintro ⟨hlen, hend⟩ a ha
    obtain ⟨i, hi, rfl⟩ := List.mem_map.mp ha
    have hi := List.mem_range.mp hi
    rw [Nat.mod_eq_of_lt (by omega)]
    exact ⟨by omega, by omega⟩

/-- The region at address 0 is taken for one that is not mapped. -/
theorem ne_zero_of_maps {addr size : ℕ} (h : hw.maps addr size) : addr ≠ 0 := by
  rw [maps, Bool.and_eq_true, decide_eq_true_eq] at h
  exact h.1

theorem ne_zero_of_carries {tableSignature addr : ℕ} (h : hw.carries build tableSignature addr) :
    addr ≠ 0 := by
  rw [carries, Bool.and_eq_true] at h
  exact ne_zero_of_maps h.1

theorem all_load {addr : ℕ} :
    Reads.All P (hw.load build count addr) ↔ ∀ a ∈ cells build count addr, P a := Iff.rfl

theorem all_acpiChecksum {addr length : ℕ} :
    Reads.All P (hw.acpiChecksum build addr length) ↔ ∀ a ∈ cells build length addr, P a := Iff.rfl

theorem load_lt (count addr : ℕ) : (hw.load build count addr).value < 256 ^ count := by
  have hlt := LittleEndian.value_lt ((cells build count addr).map hw.mem)
  rwa [List.length_map, cells, List.length_map, List.length_range] at hlt

end

/-! ### The loop -/

section

variable {build : SmpBuild} {hw : AcpiHw} {P : ℕ → Prop}
  {tableSignature entrySize tabEnd tabPtr : ℕ}

theorem scan_end (fuel : ℕ) (h : tabEnd ≤ tabPtr) :
    hw.scan build tableSignature entrySize tabEnd (fuel + 1) tabPtr = pure (some 0) :=
  if_neg (Nat.not_lt.mpr h)

theorem scan_taken (fuel : ℕ) (h : tabPtr < tabEnd) (hcarries : hw.carries build tableSignature
      ((hw.load build entrySize tabPtr).value % 2 ^ build.arch.bits)) :
    (hw.scan build tableSignature entrySize tabEnd (fuel + 1) tabPtr).value =
        some ((hw.load build entrySize tabPtr).value % 2 ^ build.arch.bits) ∧
      (Reads.All P (hw.scan build tableSignature entrySize tabEnd (fuel + 1) tabPtr) ↔
        ∀ a ∈ cells build entrySize tabPtr, P a) := by
  rw [scan, if_pos h, Reads.value_bind, Reads.all_bind, all_load]
  dsimp only
  rw [if_pos hcarries]
  exact ⟨rfl, and_iff_left (Reads.all_pure _)⟩

theorem scan_skip (fuel : ℕ) (h : tabPtr < tabEnd) (hcarries : ¬hw.carries build tableSignature
      ((hw.load build entrySize tabPtr).value % 2 ^ build.arch.bits)) :
    (hw.scan build tableSignature entrySize tabEnd (fuel + 1) tabPtr).value =
        (hw.scan build tableSignature entrySize tabEnd fuel
          ((tabPtr + entrySize) % 2 ^ build.arch.bits)).value ∧
      (Reads.All P (hw.scan build tableSignature entrySize tabEnd (fuel + 1) tabPtr) ↔
        (∀ a ∈ cells build entrySize tabPtr, P a) ∧
          Reads.All P (hw.scan build tableSignature entrySize tabEnd fuel
            ((tabPtr + entrySize) % 2 ^ build.arch.bits))) := by
  rw [scan, if_pos h, Reads.value_bind, Reads.all_bind, all_load]
  dsimp only
  rw [if_neg hcarries]
  exact ⟨rfl, Iff.rfl⟩

/-- An entry that the loop has come to is read. -/
theorem forall_cells_of_scan (fuel : ℕ) (h : tabPtr < tabEnd)
    (hall : Reads.All P (hw.scan build tableSignature entrySize tabEnd (fuel + 1) tabPtr)) :
    ∀ a ∈ cells build entrySize tabPtr, P a := by
  rw [scan, if_pos h, Reads.all_bind] at hall
  exact hall.1

/-- The loop has gone past the entries in front of one. -/
theorem scan_entries {rt : RootTable} {n : ℕ}
    (hskip : ∀ j < n, ¬hw.carries build tableSignature
      (hw.entryAt build rt j % 2 ^ build.arch.bits))
    (hbefore : ∀ j < n, entryAddr rt j < tabEnd) (hlt : entryAddr rt n < 2 ^ build.arch.bits)
    (fuel : ℕ) :
    (hw.scan build tableSignature rt.entrySize tabEnd (fuel + n) (entryAddr rt 0)).value =
        (hw.scan build tableSignature rt.entrySize tabEnd fuel (entryAddr rt n)).value ∧
      (Reads.All P (hw.scan build tableSignature rt.entrySize tabEnd (fuel + n)
          (entryAddr rt 0)) ↔
        (∀ j < n, ∀ a ∈ cells build rt.entrySize (entryAddr rt j), P a) ∧
          Reads.All P (hw.scan build tableSignature rt.entrySize tabEnd fuel
            (entryAddr rt n))) := by
  induction n generalizing fuel with
  | zero => exact ⟨rfl, (and_iff_right fun j hj => absurd hj (Nat.not_lt_zero j)).symm⟩
  | succ n ih =>
    -- the step at the last of the entries, after those in front of it
    have hnext : entryAddr rt (n + 1) = entryAddr rt n + rt.entrySize := by
      rw [entryAddr, Nat.mul_succ, ← Nat.add_assoc, entryAddr]
    obtain ⟨hvalue, hall⟩ := ih (fun j hj => hskip j (Nat.lt_succ_of_lt hj))
      (fun j hj => hbefore j (Nat.lt_succ_of_lt hj)) (by omega) (fuel + 1)
    obtain ⟨hvalue', hall'⟩ := scan_skip (P := P) fuel (hbefore n (Nat.lt_succ_self n))
      (hskip n (Nat.lt_succ_self n))
    rw [← hnext, Nat.mod_eq_of_lt hlt] at hvalue' hall'
    rw [← Nat.succ_add_eq_add_succ]
    refine ⟨hvalue.trans hvalue', hall.trans ?_⟩
    rw [hall', ← and_assoc]
    exact and_congr_left fun _ => Nat.forall_lt_succ_right.symm

end

/-! ### The result -/

section

variable {build : SmpBuild} {hw : AcpiHw} {P : ℕ → Prop} {rt : RootTable}
  {tableSignature tabEnd i : ℕ}

/-- A whole entry ends inside the table. -/
theorem entryAddr_add_le (h : i < hw.entryCount build rt) :
    0 < rt.entrySize ∧ entryAddr rt i + rt.entrySize ≤ rt.addr + hw.rootLength build rt := by
  have hpos : 0 < rt.entrySize := by
    by_contra hzero
    rw [entryCount, Nat.eq_zero_of_not_pos hzero, Nat.div_zero] at h
    exact absurd h (Nat.not_lt_zero i)
  have hle := (Nat.mul_le_mul_right rt.entrySize (Nat.succ_le_of_lt h)).trans
    (Nat.div_mul_le_self (hw.rootLength build rt - rsdtHeaderSize) rt.entrySize)
  rw [Nat.succ_mul, Nat.mul_comm] at hle
  rw [entryAddr]
  omega

/-- The bytes in front of the entries that are read: the signature and the length. -/
theorem all_header (hlo : 0 < rt.addr) (hlt : rt.addr < 2 ^ build.arch.bits) :
    (∀ a ∈ cells build 4 rt.addr, Inside rt.addr (hw.rootLength build rt) a) ∧
        (∀ a ∈ cells build 4 (rt.addr + 4), Inside rt.addr (hw.rootLength build rt) a) ↔
      8 ≤ hw.rootLength build rt ∧ rt.addr + 8 ≤ 2 ^ build.arch.bits := by
  have hbits : 4 < 2 ^ build.arch.bits := by
    cases build.arch <;> decide
  have hsignature := forall_cells_inside (hw.rootLength build rt) hlo hlt (show 0 < 4 by decide)
    (Nat.two_pow_pos _)
  have hlength := forall_cells_inside (hw.rootLength build rt) hlo hlt (show 0 < 4 by decide) hbits
  rw [Nat.add_zero] at hsignature
  rw [hsignature, hlength]
  omega

/-- What is read of a root table, and the result. -/
theorem findInRoot_of_maps (hvalid : hw.ValidRoot build rt) (tableSignature fuel : ℕ)
    (hmaps : hw.maps rt.addr rsdtHeaderSize)
    (htable : hw.maps rt.addr (hw.rootLength build rt)) :
    (hw.findInRoot build rt tableSignature fuel).value =
        (hw.scan build tableSignature rt.entrySize
          ((rt.addr + hw.rootLength build rt) % 2 ^ build.arch.bits) fuel
          ((rt.addr + rsdtHeaderSize) % 2 ^ build.arch.bits)).value ∧
      (Reads.All P (hw.findInRoot build rt tableSignature fuel) ↔
        ((∀ a ∈ cells build 4 rt.addr, P a) ∧ ∀ a ∈ cells build 4 (rt.addr + 4), P a) ∧
          (∀ a ∈ cells build (hw.rootLength build rt) rt.addr, P a) ∧
          Reads.All P (hw.scan build tableSignature rt.entrySize
            ((rt.addr + hw.rootLength build rt) % 2 ^ build.arch.bits) fuel
            ((rt.addr + rsdtHeaderSize) % 2 ^ build.arch.bits))) := by
  have hlength : (hw.load build 4 (rt.addr + 4)).value = hw.rootLength build rt := rfl
  rw [findInRoot, if_pos hmaps, Reads.value_bind, Reads.all_bind, all_load]
  rw [if_neg (not_not.mpr hvalid.signature), Reads.value_bind, Reads.all_bind, all_load, hlength,
    if_pos htable, Reads.value_bind, Reads.all_bind, all_acpiChecksum,
    if_neg (not_not.mpr hvalid.checksum), and_assoc]
  exact ⟨rfl, Iff.rfl⟩

/-- What is read of an entry. -/
theorem forall_cells_entry (hlo : 0 < rt.addr) (hlt : rt.addr < 2 ^ build.arch.bits)
    (hsize : 0 < rt.entrySize) (hentry : entryAddr rt i < 2 ^ build.arch.bits) :
    (∀ a ∈ cells build rt.entrySize (entryAddr rt i),
        Inside rt.addr (hw.rootLength build rt) a) ↔
      entryAddr rt i + rt.entrySize ≤ rt.addr + hw.rootLength build rt ∧
        entryAddr rt i + rt.entrySize ≤ 2 ^ build.arch.bits := by
  have haddr : entryAddr rt i = rt.addr + (rsdtHeaderSize + rt.entrySize * i) :=
    Nat.add_assoc ..
  rw [haddr] at hentry ⊢
  rw [forall_cells_inside _ hlo hlt hsize (by omega)]
  omega

/-- In front of the end of the address space, the addresses of the whole entries and of the first
place behind them do not wrap around. -/
theorem entryAddr_lt (hroom : rt.addr + max (hw.rootLength build rt) rsdtHeaderSize <
      2 ^ build.arch.bits) (hi : i ≤ hw.entryCount build rt) :
    entryAddr rt i < 2 ^ build.arch.bits := by
  cases i with
  | zero =>
    rw [entryAddr, Nat.mul_zero, Nat.add_zero]
    omega
  | succ j =>
    obtain ⟨-, hle⟩ := entryAddr_add_le (Nat.lt_of_succ_le hi)
    rw [entryAddr] at hle ⊢
    rw [Nat.mul_succ]
    omega

/-- The loop from an entry on, where no address wraps around. -/
def scanFrom (build : SmpBuild) (hw : AcpiHw) (rt : RootTable) (tableSignature fuel n : ℕ) :
    Reads ℕ (Option ℕ) :=
  hw.scan build tableSignature rt.entrySize (rt.addr + hw.rootLength build rt) fuel
    (entryAddr rt n)

/-- The loop goes past the whole entries in front of one if none of them is taken, and what it reads
of them is in the table. -/
theorem scanFrom_untaken (hlo : 0 < rt.addr)
    (hroom : rt.addr + max (hw.rootLength build rt) rsdtHeaderSize < 2 ^ build.arch.bits) {n : ℕ}
    (hn : n ≤ hw.entryCount build rt) (hfirst : ∀ j < n, ¬hw.Taken build rt tableSignature j)
    (fuel : ℕ) :
    (hw.scanFrom build rt tableSignature (fuel + n) 0).value =
        (hw.scanFrom build rt tableSignature fuel n).value ∧
      (Reads.All (Inside rt.addr (hw.rootLength build rt))
          (hw.scanFrom build rt tableSignature (fuel + n) 0) ↔
        Reads.All (Inside rt.addr (hw.rootLength build rt))
          (hw.scanFrom build rt tableSignature fuel n)) := by
  have hskip : ∀ j < n, ¬hw.carries build tableSignature
      (hw.entryAt build rt j % 2 ^ build.arch.bits) := fun j hj hcarries =>
    hfirst j hj ⟨Nat.lt_of_lt_of_le hj hn, hcarries⟩
  have hbefore : ∀ j < n, entryAddr rt j < rt.addr + hw.rootLength build rt := fun j hj => by
    have hle := entryAddr_add_le (Nat.lt_of_lt_of_le hj hn)
    omega
  have hentries := scan_entries (P := Inside rt.addr (hw.rootLength build rt)) hskip hbefore
    (entryAddr_lt hroom hn) fuel
  refine ⟨hentries.1, hentries.2.trans (and_iff_right fun j hj => ?_)⟩
  obtain ⟨hsize, hle⟩ := entryAddr_add_le (Nat.lt_of_lt_of_le hj hn)
  rw [forall_cells_entry hlo (by omega) hsize (by omega)]
  omega

/-- Without enough steps the loop does not end. -/
theorem lt_of_scanFrom_value (hlo : 0 < rt.addr)
    (hroom : rt.addr + max (hw.rootLength build rt) rsdtHeaderSize < 2 ^ build.arch.bits) {n : ℕ}
    (hn : n ≤ hw.entryCount build rt) (hfirst : ∀ j < n, ¬hw.Taken build rt tableSignature j)
    {fuel r : ℕ} (h : (hw.scanFrom build rt tableSignature fuel 0).value = some r) :
    ∃ left, fuel = left + 1 + n := by
  by_contra hfuel
  have hle : fuel ≤ n := by
    by_contra hlt
    exact hfuel ⟨fuel - n - 1, by omega⟩
  have hzero := (scanFrom_untaken hlo hroom (hle.trans hn)
    (fun j hj => hfirst j (Nat.lt_of_lt_of_le hj hle)) 0).1
  rw [Nat.zero_add, h] at hzero
  exact nomatch hzero

/-- A wanted entry is taken as it is. -/
theorem Wanted.taken (h : hw.Wanted build rt tableSignature i) :
    hw.Taken build rt tableSignature i ∧
      hw.entryAt build rt i % 2 ^ build.arch.bits = hw.entryAt build rt i := by
  have hmod := Nat.mod_eq_of_lt h.2.1
  exact ⟨⟨h.1, hmod.symm ▸ h.2.2⟩, hmod⟩

/-- The loop ends inside the table, with the right result. -/
def ScanFinds (build : SmpBuild) (hw : AcpiHw) (rt : RootTable) (tableSignature : ℕ) : Prop :=
  ∃ fuel r, (hw.scanFrom build rt tableSignature fuel 0).value = some r ∧
    Reads.All (Inside rt.addr (hw.rootLength build rt))
      (hw.scanFrom build rt tableSignature fuel 0) ∧
    (hw.FirstWanted build rt tableSignature r ∨
      (∀ i, ¬hw.Wanted build rt tableSignature i) ∧ r = 0)

/-- The first entry that is taken is the result. -/
theorem scanFinds_of_taken (hlo : 0 < rt.addr)
    (hroom : rt.addr + max (hw.rootLength build rt) rsdtHeaderSize < 2 ^ build.arch.bits) {m : ℕ}
    (htaken : hw.Taken build rt tableSignature m)
    (hfirst : ∀ j < m, ¬hw.Taken build rt tableSignature j) :
    hw.ScanFinds build rt tableSignature ↔
      hw.FirstWanted build rt tableSignature (hw.entryAt build rt m % 2 ^ build.arch.bits) := by
  obtain ⟨hsize, hle⟩ := entryAddr_add_le htaken.1
  -- what the loop does at this entry
  have hat (left : ℕ) := scan_taken (P := Inside rt.addr (hw.rootLength build rt)) left
    (show entryAddr rt m < rt.addr + hw.rootLength build rt by omega) htaken.2
  have hgone (left : ℕ) := scanFrom_untaken hlo hroom htaken.1.le hfirst (left + 1)
  have hinside : ∀ a ∈ cells build rt.entrySize (entryAddr rt m),
      Inside rt.addr (hw.rootLength build rt) a :=
    (forall_cells_entry hlo (by omega) hsize (by omega)).mpr ⟨hle, by omega⟩
  have hne : hw.entryAt build rt m % 2 ^ build.arch.bits ≠ 0 := ne_zero_of_carries htaken.2
  constructor
  · rintro ⟨fuel, r, hvalue, -, hr⟩
    obtain ⟨left, rfl⟩ := lt_of_scanFrom_value hlo hroom htaken.1.le hfirst hvalue
    have heq := ((hgone left).1.trans (hat left).1).symm.trans hvalue
    obtain rfl := Option.some.inj heq
    exact hr.resolve_right fun h => hne h.2
  · intro hwanted
    exact ⟨1 + m, _, (hgone 0).1.trans (hat 0).1, (hgone 0).2.mpr ((hat 0).2.mpr hinside),
      .inl hwanted⟩

/-- Without an entry that is taken, the loop ends inside the table if and only if the entries do. -/
theorem scanFinds_of_untaken (hlo : 0 < rt.addr) (hsize : 0 < rt.entrySize)
    (hroom : rt.addr + max (hw.rootLength build rt) rsdtHeaderSize < 2 ^ build.arch.bits)
    (hnone : ∀ i, ¬hw.Taken build rt tableSignature i) :
    hw.ScanFinds build rt tableSignature ↔
      (hw.rootLength build rt - rsdtHeaderSize) % rt.entrySize = 0 := by
  have hdiv := Nat.div_add_mod (hw.rootLength build rt - rsdtHeaderSize) rt.entrySize
  have hmod := Nat.mod_lt (hw.rootLength build rt - rsdtHeaderSize) hsize
  have haddr : entryAddr rt (hw.entryCount build rt) = rt.addr + rsdtHeaderSize +
    rt.entrySize * ((hw.rootLength build rt - rsdtHeaderSize) / rt.entrySize) := rfl
  have hgone (left : ℕ) := scanFrom_untaken hlo hroom le_rfl (fun j _ => hnone j) (left + 1)
  constructor
  · rintro ⟨fuel, r, hvalue, hall, -⟩
    obtain ⟨left, rfl⟩ := lt_of_scanFrom_value hlo hroom le_rfl (fun j _ => hnone j) hvalue
    by_contra hpartial
    -- an entry begins in the rest of the table, and is read to its end
    have hbegins : entryAddr rt (hw.entryCount build rt) < rt.addr + hw.rootLength build rt := by
      omega
    have hcells := (forall_cells_entry hlo (by omega) hsize (by omega)).mp
      (forall_cells_of_scan left hbegins ((hgone left).2.mp hall))
    omega
  · intro hwhole
    have hend : rt.addr + hw.rootLength build rt ≤ entryAddr rt (hw.entryCount build rt) := by
      omega
    refine ⟨1 + hw.entryCount build rt, 0, (hgone 0).1.trans ?_, (hgone 0).2.mpr ?_,
      .inr ⟨fun i h => hnone i h.taken.1, rfl⟩⟩
    · exact congrArg Reads.value (scan_end 0 hend)
    · rw [scanFrom, scan_end 0 hend]
      exact Reads.all_pure _

/-- The first entry that is taken is the result if it is an address of the build. -/
theorem firstWanted_of_lt (htaken : hw.Taken build rt tableSignature i)
    (hfirst : ∀ j < i, ¬hw.Taken build rt tableSignature j)
    (hlt : hw.entryAt build rt i < 2 ^ build.arch.bits) :
    hw.FirstWanted build rt tableSignature (hw.entryAt build rt i % 2 ^ build.arch.bits) := by
  have hmod := Nat.mod_eq_of_lt hlt
  exact ⟨i, ⟨htaken.1, hlt, hmod ▸ htaken.2⟩, fun j hj hwanted => hfirst j hj hwanted.taken.1, hmod⟩

/-- If it is not, its low half is the result only if that stands in a later entry, in front of all
others that are wanted. -/
theorem firstWanted_mod_iff (htaken : hw.Taken build rt tableSignature i)
    (hfirst : ∀ j < i, ¬hw.Taken build rt tableSignature j)
    (hle : 2 ^ build.arch.bits ≤ hw.entryAt build rt i) :
    hw.FirstWanted build rt tableSignature (hw.entryAt build rt i % 2 ^ build.arch.bits) ↔
      ∃ k < hw.entryCount build rt, i < k ∧
        hw.entryAt build rt k = hw.entryAt build rt i % 2 ^ build.arch.bits ∧
        ∀ j, i < j → j < k → ¬hw.Wanted build rt tableSignature j := by
  constructor
  · rintro ⟨k, hwanted, hbefore, heq⟩
    have hne : k ≠ i := fun hki => absurd (hki ▸ hwanted.2.1) (Nat.not_lt.mpr hle)
    have hik : i ≤ k := Nat.le_of_not_lt fun hlt => hfirst k hlt hwanted.taken.1
    exact ⟨k, hwanted.1, Nat.lt_of_le_of_ne hik hne.symm, heq.symm, fun j _ hj => hbefore j hj⟩
  · rintro ⟨k, hk, hik, heq, hbetween⟩
    have hlt : hw.entryAt build rt k < 2 ^ build.arch.bits :=
      heq ▸ Nat.mod_lt _ (Nat.two_pow_pos _)
    refine ⟨k, ⟨hk, hlt, heq ▸ htaken.2⟩, fun j hj hwanted => ?_, heq.symm⟩
    rcases Nat.lt_trichotomy j i with hji | rfl | hij
    · exact hfirst j hji hwanted.taken.1
    · exact absurd hwanted.2.1 (Nat.not_lt.mpr hle)
    · exact hbetween j hij hj hwanted

theorem scanFinds_iff (hlo : 0 < rt.addr) (hsize : 0 < rt.entrySize)
    (hroom : rt.addr + max (hw.rootLength build rt) rsdtHeaderSize < 2 ^ build.arch.bits) :
    hw.ScanFinds build rt tableSignature ↔ hw.EntriesOk build rt tableSignature := by
  classical
  by_cases hex : ∃ i, hw.Taken build rt tableSignature i
  · have htaken := Nat.find_spec hex
    have hfirst : ∀ j < Nat.find hex, ¬hw.Taken build rt tableSignature j := fun j =>
      Nat.find_min hex
    rw [scanFinds_of_taken hlo hroom htaken hfirst]
    constructor
    · intro hwanted
      refine ⟨.inl hex, fun i hi hmin hle => ?_⟩
      obtain rfl : i = Nat.find hex :=
        Nat.le_antisymm (Nat.le_of_not_lt fun hlt => hmin _ hlt htaken) (Nat.find_min' hex hi)
      exact (firstWanted_mod_iff htaken hfirst hle).mp hwanted
    · intro hok
      rcases Nat.lt_or_ge (hw.entryAt build rt (Nat.find hex)) (2 ^ build.arch.bits) with hlt | hle
      · exact firstWanted_of_lt htaken hfirst hlt
      · exact (firstWanted_mod_iff htaken hfirst hle).mpr (hok.narrow _ htaken hfirst hle)
  · have hnone : ∀ i, ¬hw.Taken build rt tableSignature i := not_exists.mp hex
    rw [scanFinds_of_untaken hlo hsize hroom hnone]
    exact ⟨fun hwhole => ⟨.inr hwhole, fun i hi => absurd hi (hnone i)⟩,
      fun hok => hok.whole.resolve_left hex⟩

/-- The first entry that is wanted is not 0. -/
theorem FirstWanted.ne_zero {r : ℕ} (h : hw.FirstWanted build rt tableSignature r) : r ≠ 0 := by
  obtain ⟨i, ⟨-, -, hcarries⟩, -, rfl⟩ := h
  exact ne_zero_of_carries hcarries

/-- The loop, if the signature and the length are in the table, and so is what is summed up. -/
theorem scan_iff (hlt : rt.addr < 2 ^ build.arch.bits) (hlo : 0 < rt.addr)
    (hsize : 0 < rt.entrySize) (hlength : 8 ≤ hw.rootLength build rt)
    (hend : rt.addr + hw.rootLength build rt ≤ 2 ^ build.arch.bits) :
    (∃ fuel r, (hw.scan build tableSignature rt.entrySize
            ((rt.addr + hw.rootLength build rt) % 2 ^ build.arch.bits) fuel
            ((rt.addr + rsdtHeaderSize) % 2 ^ build.arch.bits)).value = some r ∧
        Reads.All (Inside rt.addr (hw.rootLength build rt)) (hw.scan build tableSignature
          rt.entrySize ((rt.addr + hw.rootLength build rt) % 2 ^ build.arch.bits) fuel
          ((rt.addr + rsdtHeaderSize) % 2 ^ build.arch.bits)) ∧
        (hw.FirstWanted build rt tableSignature r ∨
          (∀ i, ¬hw.Wanted build rt tableSignature i) ∧ r = 0)) ↔
      rt.addr + max (hw.rootLength build rt) rsdtHeaderSize < 2 ^ build.arch.bits ∧
          hw.EntriesOk build rt tableSignature ∨
        rt.addr + hw.rootLength build rt = 2 ^ build.arch.bits ∧
          ∀ i, ¬hw.Wanted build rt tableSignature i := by
  have hbits : rsdtHeaderSize < 2 ^ build.arch.bits := by
    cases build.arch <;> decide
  obtain hbelow | htop := Nat.lt_or_eq_of_le hend
  · rw [Nat.mod_eq_of_lt hbelow, or_iff_left fun h => absurd h.1 (Nat.ne_of_lt hbelow)]
    by_cases hroom : rt.addr + max (hw.rootLength build rt) rsdtHeaderSize < 2 ^ build.arch.bits
    · rw [Nat.mod_eq_of_lt (show rt.addr + rsdtHeaderSize < 2 ^ build.arch.bits by omega),
        and_iff_right hroom, ← scanFinds_iff hlo hsize hroom]
      rfl
    · -- the pointer to the entries has wrapped around, and is below the end of the table
      refine iff_of_false ?_ fun h => hroom h.1
      rintro ⟨fuel, r, hvalue, hall, -⟩
      cases fuel with
      | zero => exact nomatch hvalue
      | succ fuel =>
        have hwrap : (rt.addr + rsdtHeaderSize) % 2 ^ build.arch.bits <
            rt.addr + hw.rootLength build rt := by
          rw [Nat.mod_eq_sub_mod (by omega), Nat.mod_eq_of_lt (by omega)]
          omega
        have hcells := forall_cells_of_scan fuel hwrap hall
        rw [cells_mod] at hcells
        have hinside := (forall_cells_inside _ hlo hlt hsize hbits).mp hcells
        omega
  · have hzero : (rt.addr + hw.rootLength build rt) % 2 ^ build.arch.bits = 0 := by
      rw [htop, Nat.mod_self]
    rw [hzero, or_iff_right fun h => by omega, and_iff_right htop]
    constructor
    · rintro ⟨fuel, r, hvalue, -, hr⟩
      cases fuel with
      | zero => exact nomatch hvalue
      | succ fuel =>
        rw [scan_end fuel (Nat.zero_le _)] at hvalue
        obtain rfl := Option.some.inj hvalue
        exact (hr.resolve_left fun h => h.ne_zero rfl).1
    · intro hnone
      refine ⟨1, 0, ?_, ?_, .inr ⟨hnone, rfl⟩⟩
      · rw [scan_end 0 (Nat.zero_le _)]
        rfl
      · rw [scan_end 0 (Nat.zero_le _)]
        exact Reads.all_pure _

/-- A root table that cannot be mapped as a whole: only the header is read. -/
theorem findInRoot_of_unmapped (hvalid : hw.ValidRoot build rt) (tableSignature fuel : ℕ)
    (hmaps : hw.maps rt.addr rsdtHeaderSize)
    (htable : ¬hw.maps rt.addr (hw.rootLength build rt)) :
    (hw.findInRoot build rt tableSignature fuel).value = some 0 ∧
      (Reads.All P (hw.findInRoot build rt tableSignature fuel) ↔
        (∀ a ∈ cells build 4 rt.addr, P a) ∧ ∀ a ∈ cells build 4 (rt.addr + 4), P a) := by
  have hlength : (hw.load build 4 (rt.addr + 4)).value = hw.rootLength build rt := rfl
  rw [findInRoot, if_pos hmaps, Reads.value_bind, Reads.all_bind, all_load,
    if_neg (not_not.mpr hvalid.signature), Reads.value_bind, Reads.all_bind, all_load, hlength,
    if_neg htable]
  exact ⟨rfl, and_congr_right fun _ => and_iff_left (Reads.all_pure _)⟩

/-- The search in a root table that is mapped. -/
theorem findInRoot_iff_of_maps (hvalid : hw.ValidRoot build rt)
    (hlt : rt.addr < 2 ^ build.arch.bits) (hsize : 0 < rt.entrySize)
    (hmaps : hw.maps rt.addr rsdtHeaderSize) (htable : hw.maps rt.addr (hw.rootLength build rt)) :
    (∃ fuel r, (hw.findInRoot build rt tableSignature fuel).value = some r ∧
        Reads.All (Inside rt.addr (hw.rootLength build rt))
          (hw.findInRoot build rt tableSignature fuel) ∧
        hw.Finds build rt tableSignature r) ↔
      (8 ≤ hw.rootLength build rt ∧ rt.addr + 8 ≤ 2 ^ build.arch.bits) ∧
        (rt.addr + max (hw.rootLength build rt) rsdtHeaderSize < 2 ^ build.arch.bits ∧
            hw.EntriesOk build rt tableSignature ∨
          rt.addr + hw.rootLength build rt = 2 ^ build.arch.bits ∧
            ∀ i, ¬hw.Wanted build rt tableSignature i) := by
  have hlo := Nat.pos_of_ne_zero (ne_zero_of_maps hmaps)
  have hfind (fuel : ℕ) := findInRoot_of_maps (P := Inside rt.addr (hw.rootLength build rt))
    hvalid tableSignature fuel hmaps htable
  have hfinds (r : ℕ) : hw.Finds build rt tableSignature r ↔
      hw.FirstWanted build rt tableSignature r ∨
        (∀ i, ¬hw.Wanted build rt tableSignature i) ∧ r = 0 := by
    rw [Finds, if_pos ⟨hmaps, htable⟩]
  rw [← all_header hlo hlt]
  constructor
  · rintro ⟨fuel, r, hvalue, hall, hr⟩
    obtain ⟨hheader, hsum, hscan⟩ := (hfind fuel).2.mp hall
    obtain ⟨hlength, -⟩ := (all_header hlo hlt).mp hheader
    -- the checksum is only inside if the table does not wrap around
    have hend := ((forall_cells_inside _ hlo hlt (by omega) (Nat.two_pow_pos _)).mp hsum).2
    exact ⟨hheader, (scan_iff hlt hlo hsize hlength hend).mp
      ⟨fuel, r, (hfind fuel).1.symm.trans hvalue, hscan, (hfinds r).mp hr⟩⟩
  · rintro ⟨hheader, hscan⟩
    obtain ⟨hlength, -⟩ := (all_header hlo hlt).mp hheader
    have hend : rt.addr + hw.rootLength build rt ≤ 2 ^ build.arch.bits := by
      obtain ⟨hroom, -⟩ | ⟨htop, -⟩ := hscan <;> omega
    obtain ⟨fuel, r, hvalue, hall, hr⟩ := (scan_iff hlt hlo hsize hlength hend).mpr hscan
    refine ⟨fuel, r, (hfind fuel).1.trans hvalue, (hfind fuel).2.mpr ⟨hheader, ?_, hall⟩,
      (hfinds r).mpr hr⟩
    have hsum := forall_cells_inside (hw.rootLength build rt) hlo hlt
      (show 0 < hw.rootLength build rt by omega) (Nat.two_pow_pos _)
    rw [Nat.add_zero] at hsum
    exact hsum.mpr ⟨by omega, hend⟩

/-- The search in a root table with a valid checksum. -/
theorem findInRoot_iff (hvalid : hw.ValidRoot build rt) (hlt : rt.addr < 2 ^ build.arch.bits)
    (hsize : 0 < rt.entrySize) :
    (∃ fuel r, (hw.findInRoot build rt tableSignature fuel).value = some r ∧
        Reads.All (Inside rt.addr (hw.rootLength build rt))
          (hw.findInRoot build rt tableSignature fuel) ∧
        hw.Finds build rt tableSignature r) ↔
      hw.RootOk build rt tableSignature := by
  by_cases hmaps : hw.maps rt.addr rsdtHeaderSize
  · have hlo := Nat.pos_of_ne_zero (ne_zero_of_maps hmaps)
    rw [RootOk, imp_iff_right hmaps, ← and_assoc]
    by_cases htable : hw.maps rt.addr (hw.rootLength build rt)
    · rw [imp_iff_right htable]
      exact findInRoot_iff_of_maps hvalid hlt hsize hmaps htable
    · have hfind (fuel : ℕ) := findInRoot_of_unmapped
        (P := Inside rt.addr (hw.rootLength build rt)) hvalid tableSignature fuel hmaps htable
      rw [and_iff_left fun h => absurd h htable, ← all_header hlo hlt]
      refine ⟨fun ⟨fuel, r, _, hall, _⟩ => (hfind fuel).2.mp hall, fun h =>
        ⟨0, 0, (hfind 0).1, (hfind 0).2.mpr h, ?_⟩⟩
      rw [Finds, if_neg fun h => htable h.2]
  · -- without a mapping nothing is read, and nothing is found
    refine iff_of_true ⟨0, 0, ?_, ?_, ?_⟩ fun h => absurd h hmaps
    · rw [findInRoot, if_neg hmaps]
      rfl
    · rw [findInRoot, if_neg hmaps]
      exact Reads.all_pure _
    · rw [Finds, if_neg fun h => hmaps h.1]

end

/-! ### The fields of the FADT -/

section

variable {build : SmpBuild} {hw : AcpiHw} {fadtAddr : ℕ} {config : AcpiConfig}

theorem all_fadtFields {P : ℕ → Prop} :
    Reads.All P (hw.fadtFields build fadtAddr config) ↔
      (hw.fadtLength build fadtAddr > fadtMinorRevOffset →
          ∀ a ∈ cells build 1 (fadtAddr + fadtMinorRevOffset), P a) ∧
        (∀ a ∈ cells build 4 (fadtAddr + fadtPmTmrBlkOffset), P a) ∧
        (build = .aarch64 ∧ hw.fadtLength build fadtAddr > fadtArmBootArchOffset + 1 →
          (∀ a ∈ cells build 1 (fadtAddr + fadtArmBootArchOffset), P a) ∧
            ∀ a ∈ cells build 1 (fadtAddr + fadtArmBootArchOffset + 1), P a) ∧
        (build.arch = .b64 ∧ hw.fadtLength build fadtAddr > fadtXPmTmrBlkOffset →
          let block := (fadtAddr + fadtXPmTmrBlkOffset) % 2 ^ build.arch.bits
          let rt := if hw.maps block acpiGenAddrSize then block else 0
          (∀ a ∈ cells build 1 rt, P a) ∧ ∀ a ∈ cells build 8 (rt + 4), P a) := by
  simp only [fadtFields, fadtMinorRev, fadtPmTmr, fadtArmBootArch, fadtXPmTmr, Reads.all_bind,
    Reads.all_ite, Reads.all_pure, all_load, and_true, implies_true]

/-- What is read of the extended PM timer block. -/
theorem forall_cells_block (hlo : 0 < fadtAddr) (hlt : fadtAddr < 2 ^ build.arch.bits) (len : ℕ) :
    (let block := (fadtAddr + fadtXPmTmrBlkOffset) % 2 ^ build.arch.bits
      let rt := if hw.maps block acpiGenAddrSize then block else 0
      (∀ a ∈ cells build 1 rt, Inside fadtAddr len a) ∧
        ∀ a ∈ cells build 8 (rt + 4), Inside fadtAddr len a) ↔
      hw.maps ((fadtAddr + fadtXPmTmrBlkOffset) % 2 ^ build.arch.bits) acpiGenAddrSize ∧
        220 ≤ len ∧ fadtAddr + 220 ≤ 2 ^ build.arch.bits := by
  have hbits : 256 < 2 ^ build.arch.bits := by
    cases build.arch <;> decide
  by_cases hmaps :
      hw.maps ((fadtAddr + fadtXPmTmrBlkOffset) % 2 ^ build.arch.bits) acpiGenAddrSize
  · have hspace := forall_cells_inside len hlo hlt (show 0 < 1 by decide)
      (show fadtXPmTmrBlkOffset < 2 ^ build.arch.bits by rw [fadtXPmTmrBlkOffset]; omega)
    have haddress := forall_cells_inside len hlo hlt (show 0 < 8 by decide)
      (show fadtXPmTmrBlkOffset + 4 < 2 ^ build.arch.bits by rw [fadtXPmTmrBlkOffset]; omega)
    have hcells : cells build 8 ((fadtAddr + fadtXPmTmrBlkOffset) % 2 ^ build.arch.bits + 4) =
        cells build 8 (fadtAddr + (fadtXPmTmrBlkOffset + 4)) := by
      rw [← cells_mod, Nat.mod_add_mod, cells_mod, Nat.add_assoc]
    have hoffset : fadtXPmTmrBlkOffset = 208 := rfl
    dsimp only
    rw [if_pos hmaps, cells_mod, hcells, hspace, haddress, and_iff_right hmaps]
    omega
  · -- without a mapping the block is read at address 0
    refine iff_of_false ?_ fun h => hmaps h.1
    dsimp only
    rw [if_neg hmaps]
    intro h
    have hzero := (h.1 _ (List.mem_map.mpr ⟨0, List.mem_range.mpr Nat.one_pos, rfl⟩)).1
    rw [Nat.zero_mod] at hzero
    omega

/-- The fields of a FADT. -/
theorem fadtFields_iff (hlo : 0 < fadtAddr) (hlt : fadtAddr < 2 ^ build.arch.bits) :
    Reads.All (Inside fadtAddr (hw.fadtLength build fadtAddr))
        (hw.fadtFields build fadtAddr config) ↔
      lastFieldEnd build (hw.fadtLength build fadtAddr) ≤ hw.fadtLength build fadtAddr ∧
        fadtAddr + lastFieldEnd build (hw.fadtLength build fadtAddr) ≤ 2 ^ build.arch.bits ∧
        (build.arch = .b64 → hw.fadtLength build fadtAddr > fadtXPmTmrBlkOffset →
          hw.maps ((fadtAddr + fadtXPmTmrBlkOffset) % 2 ^ build.arch.bits) acpiGenAddrSize) := by
  have hbits : 256 < 2 ^ build.arch.bits := by
    cases build.arch <;> decide
  have hfield (off count : ℕ) (hoff : off < 256) (hcount : 0 < count) :=
    forall_cells_inside (hw.fadtLength build fadtAddr) hlo hlt hcount (hoff.trans hbits)
  rw [all_fadtFields, forall_cells_block hlo hlt, Nat.add_assoc fadtAddr fadtArmBootArchOffset 1,
    hfield fadtMinorRevOffset 1 (by decide) (by decide),
    hfield fadtPmTmrBlkOffset 4 (by decide) (by decide),
    hfield fadtArmBootArchOffset 1 (by decide) (by decide),
    hfield (fadtArmBootArchOffset + 1) 1 (by decide) (by decide), ← and_imp, lastFieldEnd]
  have hminorOffset : fadtMinorRevOffset = 131 := rfl
  have hpmOffset : fadtPmTmrBlkOffset = 76 := rfl
  have harmOffset : fadtArmBootArchOffset = 129 := rfl
  have hblockEnd : fadtXPmTmrBlkOffset + acpiGenAddrSize = 220 := rfl
  have hblockOffset : fadtXPmTmrBlkOffset = 208 := rfl
  by_cases hblock : build.arch = .b64 ∧ hw.fadtLength build fadtAddr > fadtXPmTmrBlkOffset
  · rw [if_pos hblock, imp_iff_right hblock, imp_iff_right hblock, hblockEnd]
    have hlength := hblock.2
    constructor
    · rintro ⟨-, -, -, hmaps, hlen, hend⟩
      exact ⟨hlen, hend, hmaps⟩
    · rintro ⟨hlen, hend, hmaps⟩
      exact ⟨fun _ => by omega, by omega, fun _ => by omega, hmaps, hlen, hend⟩
  · rw [if_neg hblock, and_iff_left fun h => absurd h hblock, and_iff_left fun h => absurd h hblock]
    -- the guards of the other fields are those under which they end inside the table
    by_cases hminor : hw.fadtLength build fadtAddr > fadtMinorRevOffset
    · rw [if_pos hminor, imp_iff_right hminor]
      constructor
      · rintro ⟨hfirst, -, -⟩
        omega
      · intro h
        exact ⟨by omega, by omega, fun _ => by omega⟩
    · rw [if_neg hminor, and_iff_right fun h => absurd h hminor]
      split_ifs with harm
      · rw [imp_iff_right harm]
        have hlength := harm.2
        omega
      · rw [and_iff_left fun h => absurd h harm]
        omega

/-- The fields of a FADT with a valid checksum. -/
theorem fadtInside_iff (config : AcpiConfig) (hlt : fadtAddr < 2 ^ build.arch.bits)
    (hchecksum : (hw.acpiChecksum build fadtAddr (hw.fadtLength build fadtAddr)).value = 0) :
    hw.FadtInside build fadtAddr config ↔ hw.FadtOk build fadtAddr := by
  rw [FadtInside, FadtOk, parseFadt]
  by_cases hzero : fadtAddr = 0
  · rw [if_pos (.inl hzero)]
    exact iff_of_true (Reads.all_pure _) fun h => absurd hzero h
  · rw [if_neg (not_or.mpr ⟨hzero, not_not.mpr hchecksum⟩), Reads.all_bind, imp_iff_right hzero,
      and_iff_left (Reads.all_pure _)]
    exact fadtFields_iff (Nat.pos_of_ne_zero hzero) hlt

end

/-! ### Both tables -/

/-- The root table has an address of the build, and its entries are not empty. -/
theorem rootTable_spec (build : SmpBuild) (hw : AcpiHw) :
    (hw.rootTable build).addr < 2 ^ build.arch.bits ∧ 0 < (hw.rootTable build).entrySize := by
  have hbits : 256 ^ 4 ≤ 2 ^ build.arch.bits := by
    cases build.arch <;> decide
  rw [rootTable]
  split_ifs with hxsdt
  · exact ⟨Nat.mod_lt _ (Nat.two_pow_pos _), Nat.succ_pos _⟩
  · exact ⟨(load_lt _ _).trans_le hbits, Nat.succ_pos _⟩

/-- **ACPI tables.** With a root table and a FADT that have valid checksums, the search for a
table ends with the right result and the parsing stays inside the tables if and only if the root
table is as long as its header says in whole entries, up to one that is taken, and the FADT is
long enough for the fields that are read of it.

A build with 32 bits takes an entry of the XSDT by its low half. That is right only if the entry
has no other half, or if the low half is an entry of its own that would be found anyway.

The memory is arbitrary, and so is which regions can be mapped. The checksums are those the code
computes, over as many bytes as the header says, so a length shorter than the header itself is
possible. -/
theorem acpiTables_iff (build : SmpBuild) (hw : AcpiHw) (config : AcpiConfig)
    (tableSignature fadtAddr : ℕ) (hroot : hw.ValidRoot build (hw.rootTable build))
    (hlt : fadtAddr < 2 ^ build.arch.bits)
    (hfadt : (hw.acpiChecksum build fadtAddr (hw.fadtLength build fadtAddr)).value = 0) :
    hw.FindsInside build config tableSignature ∧ hw.FadtInside build fadtAddr config ↔
      hw.RootOk build (hw.rootTable build) tableSignature ∧ hw.FadtOk build fadtAddr := by
  obtain ⟨haddr, hsize⟩ := rootTable_spec build hw
  exact and_congr (findInRoot_iff hroot haddr hsize) (fadtInside_iff config hlt hfadt)

/-- A machine with an XSDT of some length at 0x1000, and with a FADT of 244 bytes at 0x2000. An
entry for the FADT is at the place of the first one. -/
def smallTables (xsdtLength xsdtChecksum : UInt8) : AcpiHw where
  mem a :=
    if a < 0x1000 then [(0x10F, 2), (0x119, 0x10)].lookup a |>.getD 0
    else if a < 0x2000 then
      [(0, 0x58), (1, 0x53), (2, 0x44), (3, 0x54), (4, xsdtLength), (9, xsdtChecksum),
        (37, 0x20)].lookup (a - 0x1000) |>.getD 0
    else
      [(0, 0x46), (1, 0x41), (2, 0x43), (3, 0x50), (4, 0xF4), (9, 0xF2)].lookup (a - 0x2000)
        |>.getD 0
  mapRegion _ _ := true
  rsdpAddr := 0x100

/-- `acpi_config`, before the tables are parsed. -/
def noConfig : AcpiConfig := ⟨0, 0, 0, 0, false⟩

/-- An XSDT with a single entry, which is the FADT that is looked for. -/
theorem acpiTables_iff_singleEntry :
    (smallTables 44 0x71).FindsInside (.x86 .b64) noConfig fadtSignature ∧
      (smallTables 44 0x71).FadtInside (.x86 .b64) 0x2000 noConfig := by
  refine (acpiTables_iff (.x86 .b64) (smallTables 44 0x71) noConfig fadtSignature 0x2000
    ⟨by decide +kernel, by decide +kernel⟩ (by decide) (by decide +kernel)).mpr ⟨?_, ?_⟩
  · refine fun _ => ⟨by decide, by decide, fun _ => .inl ⟨by decide, ?_⟩⟩
    refine ⟨.inr (by decide), fun i hi _ hwide => absurd hwide ?_⟩
    have hone : (smallTables 44 0x71).entryCount (.x86 .b64)
      ((smallTables 44 0x71).rootTable (.x86 .b64)) = 1 := by decide
    obtain rfl : i = 0 := Nat.lt_one_iff.mp (hone ▸ hi.1)
    decide
  · exact fun _ => ⟨by decide, by decide, fun _ _ => by decide⟩

/-- With the length 40 the only entry is not a whole one, but it is read. -/
theorem acpiTables_not_inside :
    (smallTables 40 0x75).ValidRoot (.x86 .b64) ((smallTables 40 0x75).rootTable (.x86 .b64)) ∧
      ¬(smallTables 40 0x75).FindsInside (.x86 .b64) noConfig fadtSignature := by
  have hvalid : (smallTables 40 0x75).ValidRoot (.x86 .b64)
      ((smallTables 40 0x75).rootTable (.x86 .b64)) := ⟨by decide, by decide⟩
  obtain ⟨haddr, hsize⟩ := rootTable_spec (.x86 .b64) (smallTables 40 0x75)
  have hnone : (smallTables 40 0x75).entryCount (.x86 .b64)
    ((smallTables 40 0x75).rootTable (.x86 .b64)) = 0 := by decide
  refine ⟨hvalid, fun h => ?_⟩
  obtain ⟨-, -, htable⟩ := (findInRoot_iff hvalid haddr hsize).mp h (by decide)
  obtain ⟨-, hok⟩ | ⟨htop, -⟩ := htable (by decide)
  · obtain ⟨i, hi⟩ | hwhole := hok.whole
    · exact absurd hi.1 (by rw [hnone]; exact Nat.not_lt_zero i)
    · exact absurd hwhole (by decide)
  · exact absurd htop (by decide)

end AcpiHw

end Memtest
