import Mathlib.Algebra.Group.Nat.Defs
import Memtest.Windows.Paging

/-!
# Mapping device memory (`map_region` in `system/x86/vmem.c`)

The page tables map four gigabytes of virtual addresses, in pages of two megabytes and at first one
to one. A region of physical memory that lies where the addresses stay as they are needs no
mapping. Any other region is mapped to consecutive pages of the table `pd3`, of which the first
`MAX_REGION_PAGES` are given out one after the other. A region that is in the table already is not
added again, and one that begins with the last pages of the table only needs the rest of its pages.

The startup code enables paging only on a CPU with PAE. `map_region` does not look at that, other
than `map_window`: on a CPU without PAE the addresses it gives out are physical ones, and only by
chance those of the region.

The windows of the memory under test play no part here: `map_window` changes `pd2`, and is not
called before the regions needed at startup are done with.
-/

namespace Memtest

/-- `VM_PAGE_SIZE`. -/
def vmPageSize : ℕ := 1 <<< vmPageShift

/-- `MAX_REGION_PAGES`. -/
def maxRegionPages : ℕ := 256

/-- `VM_WINDOW_START`. -/
def vmWindowStart : ℕ := 2 <<< 30

/-- `VM_REGION_START`. -/
def vmRegionStart : ℕ := vmWindowStart + 1 <<< 30

/-- `VM_REGION_END`. -/
def vmRegionEnd : ℕ := vmRegionStart + maxRegionPages * vmPageSize - 1

/-- `VM_SPACE_END`. -/
def vmSpaceEnd : ℕ := 0xffffffff

/-- The entry of a page: its address and the flags. -/
def pageEntry (physPage : ℕ) : ℕ := physPage <<< vmPageShift + 0x83

/-- `pd3` and `device_pages_used`. -/
structure DeviceMap where
  pd3 : ℕ → ℕ
  devicePagesUsed : ℕ

/-- The tables of the startup code. -/
def DeviceMap.initial : DeviceMap where
  pd3 := windowEntry 3
  devicePagesUsed := 0

/-- The physical address the CPU accesses for a virtual one. Without PAE paging is disabled, and the
addresses are physical ones. Otherwise `pd0`, `pd1` and `pd2` map the first three gigabytes one to
one. -/
def DeviceMap.translate (flags : CpuFlags) (s : DeviceMap) (addr : ℕ) : Option ℕ :=
  if addr > vmSpaceEnd then none
  else if flags.pae = false ∨ addr < vmRegionStart then some addr
  else some (entryFrame (s.pd3 ((addr - vmRegionStart) / vmPageSize)) * vmPageSize +
    addr % vmPageSize)

/-- A call of `map_region`. -/
structure MapCall (arch : Arch) where
  baseAddr : BitVec arch.bits
  size : BitVec arch.bits
  onlyForStartup : Bool

namespace MapCall

variable {arch : Arch} (c : MapCall arch)

/-- `last_addr`. -/
def lastAddr : ℕ := (c.baseAddr + c.size - 1).toNat

/-- `first_phys_page`. -/
def firstPhysPage : ℕ := c.baseAddr.toNat >>> vmPageShift

/-- `last_phys_page`. -/
def lastPhysPage : ℕ := c.lastAddr >>> vmPageShift

/-- The number of pages the region takes. -/
def pageCount : ℕ := c.lastPhysPage + 1 - c.firstPhysPage

/-- The region is permanently mapped, or for as long as it is needed: it lies below the window of
the memory under test, or below the mapped regions if it is only for startup, or above the mapped
regions and below four gigabytes. -/
def PermanentlyMapped : Prop :=
  c.lastAddr < (if c.onlyForStartup = true then vmRegionStart else vmWindowStart) ∨
    (c.baseAddr.toNat > vmRegionEnd ∧ c.lastAddr ≤ vmSpaceEnd)

instance : Decidable c.PermanentlyMapped := inferInstanceAs (Decidable (_ ∨ _))

/-- The region does not wrap around the end of the address space. An empty region at address 0 is
excluded, since its last address would. -/
def NoWrap : Prop :=
  0 < c.baseAddr.toNat + c.size.toNat ∧ c.baseAddr.toNat + c.size.toNat ≤ 2 ^ arch.bits

end MapCall

/-- The loop of `map_region` that looks for the region in the table, with so many entries left. The
results are `first_virt_page` and `curr_phys_page`. -/
def findPages (pd3 : ℕ → ℕ) (firstPhysPage lastPhysPage : ℕ) : ℕ → ℕ → ℕ → ℕ → ℕ × ℕ
  | 0, _, firstVirtPage, currPhysPage => (firstVirtPage, currPhysPage)
  | left + 1, currVirtPage, firstVirtPage, currPhysPage =>
      if currPhysPage ≤ lastPhysPage then
        if pd3 currVirtPage >>> vmPageShift = currPhysPage then
          findPages pd3 firstPhysPage lastPhysPage left (currVirtPage + 1) firstVirtPage
            (currPhysPage + 1)
        else
          findPages pd3 firstPhysPage lastPhysPage left (currVirtPage + 1) (currVirtPage + 1)
            firstPhysPage
      else (firstVirtPage, currPhysPage)

/-- `pd3[device_pages_used++] = (page << VM_PAGE_SHIFT) + 0x83`. -/
def DeviceMap.addPage (s : DeviceMap) (physPage : ℕ) : DeviceMap where
  pd3 := Function.update s.pd3 s.devicePagesUsed (pageEntry physPage)
  devicePagesUsed := s.devicePagesUsed + 1

/-- The loop of `map_region` that adds the pages not found, with so many of them left. The flag
tells whether the table had room for them. -/
def addPages : ℕ → ℕ → DeviceMap → Bool × DeviceMap
  | 0, _, s => (true, s)
  | left + 1, currPhysPage, s =>
      if s.devicePagesUsed = maxRegionPages then (false, s)
      else addPages left (currPhysPage + 1) (s.addPage currPhysPage)

/-- What the first loop of `map_region` finds. -/
def MapCall.found {arch : Arch} (c : MapCall arch) (s : DeviceMap) : ℕ × ℕ :=
  findPages s.pd3 c.firstPhysPage c.lastPhysPage s.devicePagesUsed 0 0 c.firstPhysPage

/-- The number of pages of the region that the table does not have yet. -/
def MapCall.pagesLeft {arch : Arch} (c : MapCall arch) (s : DeviceMap) : ℕ :=
  c.lastPhysPage + 1 - (c.found s).2

/-- `map_region`: the result and the table afterwards. -/
def mapRegion {arch : Arch} (s : DeviceMap) (c : MapCall arch) : ℕ × DeviceMap :=
  if c.PermanentlyMapped then (c.baseAddr.toNat, s)
  else
    match addPages (c.pagesLeft s) (c.found s).2 s with
    | (false, s) => (0, s)
    | (true, t) =>
        (vmRegionStart + (c.found s).1 * vmPageSize + c.baseAddr.toNat % vmPageSize, t)

/-- The table after some calls. -/
def mapRun {arch : Arch} (calls : List (MapCall arch)) : DeviceMap :=
  calls.foldl (fun s c => (mapRegion s c).2) .initial

/-- What `map_region` is for, said of one call in every sequence of calls whose regions do not
wrap. Every result but zero is a virtual address of the region, at once and after the further
calls, failed ones included. The result is zero only where the pages missing in the table do not
fit in. Which address the CPU accesses is what its page tables say, or the address itself without
paging. -/
structure MapCall.Sound {arch : Arch} (flags : CpuFlags) (c : MapCall arch) : Prop where
  maps : ∀ before after : List (MapCall arch), (∀ c' ∈ before, c'.NoWrap) →
    (∀ c' ∈ after, c'.NoWrap) → (mapRegion (mapRun before) c).1 ≠ 0 → ∀ d < c.size.toNat,
      (mapRun (before ++ c :: after)).translate flags ((mapRegion (mapRun before) c).1 + d) =
        some (c.baseAddr.toNat + d)
  fails : ∀ before : List (MapCall arch), (∀ c' ∈ before, c'.NoWrap) →
    (mapRegion (mapRun before) c).1 = 0 →
      maxRegionPages < (mapRun before).devicePagesUsed + c.pagesLeft (mapRun before)

/-! ### The two loops -/

/-- Consecutive entries of the table hold the pages from `physPage` on. -/
def HoldsPages (pd3 : ℕ → ℕ) (virtPage physPage count : ℕ) : Prop :=
  ∀ k < count, pd3 (virtPage + k) >>> vmPageShift = physPage + k

variable {pd3 : ℕ → ℕ} {first last : ℕ}

/-- **Scan.** The loop ends with entries that hold the first pages of the region. Unless these are
all of its pages they are the last entries of the table. The induction is on the entries left; the
match found so far ends at the entry that is looked at. -/
theorem findPages_spec {left currVirt firstVirt currPhys : ℕ} (hfirst : first ≤ currPhys)
    (hlast : currPhys ≤ last + 1) (hcount : firstVirt + (currPhys - first) = currVirt)
    (hmaps : HoldsPages pd3 firstVirt first (currPhys - first)) :
    let r := findPages pd3 first last left currVirt firstVirt currPhys
    first ≤ r.2 ∧ r.2 ≤ last + 1 ∧ r.1 + (r.2 - first) ≤ currVirt + left ∧
      HoldsPages pd3 r.1 first (r.2 - first) ∧
      (r.2 ≤ last → r.1 + (r.2 - first) = currVirt + left) := by
  induction left generalizing currVirt firstVirt currPhys with
  | zero => exact ⟨hfirst, hlast, Nat.le_of_eq hcount, hmaps, fun _ => hcount⟩
  | succ left ih =>
    dsimp only
    rw [findPages]
    split_ifs with hmore hmatch
    · -- the match grows by one page
      have hgrown : HoldsPages pd3 firstVirt first (currPhys + 1 - first) := by
        intro k hk
        rcases Nat.lt_or_ge k (currPhys - first) with hlt | hge
        · exact hmaps k hlt
        · rw [show firstVirt + k = currVirt by omega, hmatch]
          omega
      have hend : firstVirt + (currPhys + 1 - first) = currVirt + 1 := by omega
      have h := ih (by omega) (by omega) hend hgrown
      rwa [Nat.add_assoc currVirt 1, Nat.add_comm 1 left] at h
    · have hend : currVirt + 1 + (first - first) = currVirt + 1 := by omega
      have h := ih (Nat.le_refl first) (by omega) hend (fun k hk => absurd hk (by omega))
      rwa [Nat.add_assoc currVirt 1, Nat.add_comm 1 left] at h
    · exact ⟨hfirst, hlast, by omega, hmaps, fun hle => absurd hle hmore⟩

theorem pageEntry_frame (physPage : ℕ) : pageEntry physPage >>> vmPageShift = physPage := by
  rw [pageEntry, vmPageShift, Nat.shiftRight_eq_div_pow, Nat.shiftLeft_eq]
  omega

theorem DeviceMap.addPage_pd3_self (s : DeviceMap) (physPage : ℕ) :
    (s.addPage physPage).pd3 s.devicePagesUsed = pageEntry physPage :=
  Function.update_self _ _ _

theorem DeviceMap.addPage_pd3_of_ne (s : DeviceMap) (physPage : ℕ) {i : ℕ}
    (h : i ≠ s.devicePagesUsed) : (s.addPage physPage).pd3 i = s.pd3 i :=
  Function.update_of_ne h _ _

/-- **Extension.** The loop only writes entries that were not in use. If the table has room for all
the pages, they follow one another from the first of these entries on. -/
theorem addPages_spec {left currPhys : ℕ} {s : DeviceMap}
    (hs : s.devicePagesUsed ≤ maxRegionPages) :
    let r := addPages left currPhys s
    s.devicePagesUsed ≤ r.2.devicePagesUsed ∧ r.2.devicePagesUsed ≤ maxRegionPages ∧
      (∀ i, i < s.devicePagesUsed ∨ r.2.devicePagesUsed ≤ i → r.2.pd3 i = s.pd3 i) ∧
      (r.1 = true → r.2.devicePagesUsed = s.devicePagesUsed + left ∧
        HoldsPages r.2.pd3 s.devicePagesUsed currPhys left) ∧
      (r.1 = false → maxRegionPages < s.devicePagesUsed + left) := by
  induction left generalizing currPhys s with
  | zero =>
    exact ⟨Nat.le_refl _, hs, fun i _ => rfl, fun _ => ⟨rfl, fun k hk => absurd hk (by omega)⟩,
      fun h => Bool.noConfusion h⟩
  | succ left ih =>
    dsimp only
    rw [addPages]
    by_cases hfull : s.devicePagesUsed = maxRegionPages
    · rw [if_pos hfull]
      exact ⟨Nat.le_refl _, hs, fun i _ => rfl, fun h => Bool.noConfusion h, fun _ => by omega⟩
    rw [if_neg hfull]
    have hused : (s.addPage currPhys).devicePagesUsed = s.devicePagesUsed + 1 := rfl
    obtain ⟨hmore, hmax, hkept, hmapped, hfailed⟩ :=
      @ih (currPhys + 1) (s.addPage currPhys) (Nat.lt_of_le_of_ne hs hfull)
    rw [hused] at hmore hkept hmapped hfailed
    refine ⟨by omega, hmax, fun i hi => ?_, fun hok => ?_, fun hno => ?_⟩
    · rw [hkept i (by omega), s.addPage_pd3_of_ne _ (by omega)]
    · obtain ⟨hcount, hmaps⟩ := hmapped hok
      refine ⟨by omega, fun k hk => ?_⟩
      rcases k with _ | k
      · rw [hkept _ (.inl (by omega))]
        exact (congrArg (· >>> vmPageShift) (s.addPage_pd3_self currPhys)).trans
          (pageEntry_frame currPhys)
      · have hpage := hmaps k (by omega)
        rwa [Nat.add_assoc, Nat.add_comm 1 k, Nat.add_assoc, Nat.add_comm 1 k] at hpage
    · have hlt := hfailed hno
      omega

/-! ### Calls -/

variable {arch : Arch} {flags : CpuFlags} {c : MapCall arch} {s : DeviceMap}

/-- The entries that are not in use are those of the startup code. -/
structure DeviceMap.Inv (s : DeviceMap) : Prop where
  used_le : s.devicePagesUsed ≤ maxRegionPages
  unused : ∀ i, s.devicePagesUsed ≤ i → s.pd3 i = windowEntry 3 i

/-- What is in use stays as it is. -/
structure DeviceMap.Extends (s t : DeviceMap) : Prop where
  used_le : s.devicePagesUsed ≤ t.devicePagesUsed
  kept : ∀ i < s.devicePagesUsed, t.pd3 i = s.pd3 i

theorem DeviceMap.Extends.trans {s t u : DeviceMap} (h : s.Extends t) (h' : t.Extends u) :
    s.Extends u :=
  ⟨Nat.le_trans h.used_le h'.used_le, fun i hi =>
    (h'.kept i (Nat.lt_of_lt_of_le hi h.used_le)).trans (h.kept i hi)⟩

theorem DeviceMap.inv_initial : DeviceMap.initial.Inv := ⟨Nat.zero_le _, fun _ _ => rfl⟩

/-- A call leaves the tables permanently mapped regions need alone, and the entries in use. -/
theorem mapRegion_table (hs : s.Inv) (c : MapCall arch) :
    (mapRegion s c).2.Inv ∧ s.Extends (mapRegion s c).2 := by
  rw [mapRegion]
  split_ifs
  · exact ⟨hs, Nat.le_refl _, fun i _ => rfl⟩
  obtain ⟨hmore, hmax, hkept, -⟩ := @addPages_spec (c.pagesLeft s) (c.found s).2 s hs.used_le
  have htable : (addPages (c.pagesLeft s) (c.found s).2 s).2.Inv ∧
      s.Extends (addPages (c.pagesLeft s) (c.found s).2 s).2 :=
    ⟨⟨hmax, fun i hi => (hkept i (.inr hi)).trans (hs.unused i (Nat.le_trans hmore hi))⟩,
      hmore, fun i hi => hkept i (.inl hi)⟩
  split
  · next t heq => rwa [heq] at htable
  · next t heq => rwa [heq] at htable

/-- **Run lemma.** -/
theorem foldl_mapRegion (hs : s.Inv) (calls : List (MapCall arch)) :
    (calls.foldl (fun s c => (mapRegion s c).2) s).Inv ∧
      s.Extends (calls.foldl (fun s c => (mapRegion s c).2) s) := by
  induction calls generalizing s with
  | nil => exact ⟨hs, Nat.le_refl _, fun i _ => rfl⟩
  | cons c calls ih =>
    obtain ⟨hinv, hext⟩ := mapRegion_table hs c
    obtain ⟨hinv', hext'⟩ := ih hinv
    exact ⟨hinv', hext.trans hext'⟩

/-- The last address of a region that does not wrap. -/
theorem MapCall.lastAddr_eq (h : c.NoWrap) :
    c.lastAddr = c.baseAddr.toNat + c.size.toNat - 1 := by
  obtain ⟨hpos, hle⟩ := h
  have hone : (1 : BitVec arch.bits).toNat = 1 := by cases arch <;> rfl
  rw [lastAddr, BitVec.toNat_sub, BitVec.toNat_add, hone]
  rcases Nat.lt_or_ge (c.baseAddr.toNat + c.size.toNat) (2 ^ arch.bits) with hlt | hge
  · rw [Nat.mod_eq_of_lt hlt, show 2 ^ arch.bits - 1 + (c.baseAddr.toNat + c.size.toNat) =
      c.baseAddr.toNat + c.size.toNat - 1 + 2 ^ arch.bits by omega, Nat.add_mod_right,
      Nat.mod_eq_of_lt (by omega)]
  · rw [Nat.le_antisymm hle hge, Nat.mod_self, Nat.add_zero,
      Nat.mod_eq_of_lt (Nat.sub_lt (Nat.two_pow_pos _) Nat.one_pos)]

theorem MapCall.PermanentlyMapped.lastAddr_le (h : c.PermanentlyMapped) :
    c.lastAddr ≤ vmSpaceEnd := by
  rcases h with hlow | ⟨-, hlast⟩
  · have hstart : (if c.onlyForStartup = true then vmRegionStart else vmWindowStart) ≤
        vmSpaceEnd := by
      split <;> decide
    exact Nat.le_trans (Nat.le_of_lt hlow) hstart
  · exact hlast

/-- Permanently mapped addresses are their own physical addresses: they lie below the table or
behind the entries that are given out. -/
theorem translate_of_permanentlyMapped (hs : s.Inv) (hc : c.PermanentlyMapped) {addr : ℕ}
    (hlo : c.baseAddr.toNat ≤ addr) (hhi : addr ≤ c.lastAddr) :
    s.translate flags addr = some addr := by
  have hspace : vmSpaceEnd = 4294967295 := rfl
  have hstart : vmRegionStart = 3221225472 := rfl
  have hle := hc.lastAddr_le
  rw [DeviceMap.translate, if_neg (by omega)]
  rcases hc with hlow | ⟨hhigh, -⟩
  · have hlt : addr < vmRegionStart := by
      refine Nat.lt_of_le_of_lt hhi (Nat.lt_of_lt_of_le hlow ?_)
      split <;> decide
    rw [if_pos (.inr hlt)]
  · have hend : vmRegionEnd = 3758096383 := rfl
    have hsize : vmPageSize = 2097152 := rfl
    have hmax : s.devicePagesUsed ≤ 256 := hs.used_le
    by_cases hpae : flags.pae = false
    · rw [if_pos (.inl hpae)]
    rw [if_neg (not_or.mpr ⟨hpae, by omega⟩), hs.unused _ (by rw [hstart, hsize]; omega),
      entryFrame_windowEntry (by decide) (by rw [hstart, hsize]; omega), hstart, hsize]
    exact congrArg some (by omega)

/-- Without PAE all addresses are their own physical addresses. -/
theorem translate_of_noPae (hpae : flags.pae = false) {addr : ℕ} (h : addr ≤ vmSpaceEnd) :
    s.translate flags addr = some addr := by
  rw [DeviceMap.translate, if_neg (Nat.not_lt.mpr h), if_pos (.inl hpae)]

/-- An entry holds the address bits of its page up to the highest one that a CPU knows. -/
theorem entryFrame_eq (entry : ℕ) : entryFrame entry = entry >>> vmPageShift % 2 ^ 31 := by
  rw [entryFrame, vmPageShift, Nat.shiftRight_eq_div_pow]
  omega

/-- With PAE, addresses in consecutive entries that hold the pages of a region. -/
theorem translate_of_maps (hpae : flags.pae = true) {virtPage physPage count offset : ℕ}
    (hmaps : HoldsPages s.pd3 virtPage physPage count) (hoffset : offset < count * vmPageSize)
    (hroom : virtPage + count ≤ maxRegionPages) :
    s.translate flags (vmRegionStart + virtPage * vmPageSize + offset) =
      some ((physPage * vmPageSize + offset) % 2 ^ 52) := by
  have hspace : vmSpaceEnd = 4294967295 := rfl
  have hstart : vmRegionStart = 3221225472 := rfl
  have hsize : vmPageSize = 2097152 := rfl
  have hmax : maxRegionPages = 256 := rfl
  rw [hsize] at hoffset ⊢
  rw [hmax] at hroom
  have hpage := hmaps (offset / 2097152) (by omega)
  have hon : ¬flags.pae = false := by
    rw [hpae]
    exact Bool.noConfusion
  rw [DeviceMap.translate, if_neg (by omega), if_neg (not_or.mpr ⟨hon, by omega⟩), hsize,
    show (vmRegionStart + virtPage * 2097152 + offset - vmRegionStart) / 2097152 =
      virtPage + offset / 2097152 by omega, entryFrame_eq, hpage]
  exact congrArg some (by omega)

theorem MapCall.firstPhysPage_le (h : c.NoWrap) : c.firstPhysPage ≤ c.lastPhysPage + 1 := by
  have hlast := c.lastAddr_eq h
  have hfirst : c.firstPhysPage = c.baseAddr.toNat / 2097152 := Nat.shiftRight_eq_div_pow _ 21
  have hend : c.lastPhysPage = c.lastAddr / 2097152 := Nat.shiftRight_eq_div_pow _ 21
  omega

theorem MapCall.found_spec (h : c.NoWrap) (s : DeviceMap) :
    c.firstPhysPage ≤ (c.found s).2 ∧ (c.found s).2 ≤ c.lastPhysPage + 1 ∧
      (c.found s).1 + ((c.found s).2 - c.firstPhysPage) ≤ s.devicePagesUsed ∧
      HoldsPages s.pd3 (c.found s).1 c.firstPhysPage ((c.found s).2 - c.firstPhysPage) ∧
      ((c.found s).2 ≤ c.lastPhysPage →
        (c.found s).1 + ((c.found s).2 - c.firstPhysPage) = s.devicePagesUsed) := by
  have hspec := @findPages_spec s.pd3 c.firstPhysPage c.lastPhysPage s.devicePagesUsed 0 0
    c.firstPhysPage (Nat.le_refl _) (c.firstPhysPage_le h) (by omega)
    (fun k hk => absurd hk (by omega))
  rwa [Nat.zero_add] at hspec

/-- With the pages that were not found added to the table, it has all pages of the region. -/
theorem maps_addPages (hs : s.Inv) (hwrap : c.NoWrap)
    (hok : (addPages (c.pagesLeft s) (c.found s).2 s).1 = true) :
    HoldsPages (addPages (c.pagesLeft s) (c.found s).2 s).2.pd3 (c.found s).1 c.firstPhysPage
        (c.lastPhysPage + 1 - c.firstPhysPage) ∧
      (c.found s).1 + (c.lastPhysPage + 1 - c.firstPhysPage) ≤
        (addPages (c.pagesLeft s) (c.found s).2 s).2.devicePagesUsed := by
  obtain ⟨hlo, hhi, hcount, hfound, htail⟩ := c.found_spec hwrap s
  obtain ⟨-, -, hkept, hmapped, -⟩ := @addPages_spec (c.pagesLeft s) (c.found s).2 s hs.used_le
  obtain ⟨hused, hadded⟩ := hmapped hok
  have hleft : c.pagesLeft s = c.lastPhysPage + 1 - (c.found s).2 := rfl
  refine ⟨fun k hk => ?_, by omega⟩
  rcases Nat.lt_or_ge k ((c.found s).2 - c.firstPhysPage) with hold | hnew
  · rw [hkept _ (.inl (by omega))]
    exact hfound k hold
  · have hpage := hadded (k - ((c.found s).2 - c.firstPhysPage)) (by omega)
    rwa [show s.devicePagesUsed + (k - ((c.found s).2 - c.firstPhysPage)) = (c.found s).1 + k by
      omega, show (c.found s).2 + (k - ((c.found s).2 - c.firstPhysPage)) = c.firstPhysPage + k by
      omega] at hpage

/-- A region longer than the table never fits in. -/
theorem MapCall.lt_pagesLeft (hwrap : c.NoWrap) (hcount : maxRegionPages < c.pageCount)
    (s : DeviceMap) : maxRegionPages < s.devicePagesUsed + c.pagesLeft s := by
  obtain ⟨hlo, hhi, hused, -, htail⟩ := c.found_spec hwrap s
  rw [pageCount] at hcount
  rw [pagesLeft]
  omega

/-- A call for a region that is not permanently mapped. -/
theorem mapRegion_eq (hperm : ¬c.PermanentlyMapped)
    (hok : (addPages (c.pagesLeft s) (c.found s).2 s).1 = true) :
    mapRegion s c = (vmRegionStart + (c.found s).1 * vmPageSize +
      c.baseAddr.toNat % vmPageSize, (addPages (c.pagesLeft s) (c.found s).2 s).2) := by
  rw [mapRegion, if_neg hperm]
  split
  · next heq =>
    rw [heq] at hok
    exact Bool.noConfusion hok
  · next heq => rw [heq]

theorem mapRegion_ok (hperm : ¬c.PermanentlyMapped) (hne : (mapRegion s c).1 ≠ 0) :
    (addPages (c.pagesLeft s) (c.found s).2 s).1 = true := by
  by_contra hno
  rw [mapRegion, if_neg hperm] at hne
  split at hne
  · exact hne rfl
  · next heq => exact hno (by rw [heq])

/-- With PAE, what a successful call returns is mapped to the region as long as the entries in use
stay as they are, except for the address bits that an entry does not have. -/
theorem mapRegion_maps (hpae : flags.pae = true) (hs : s.Inv) (hwrap : c.NoWrap)
    (hperm : ¬c.PermanentlyMapped) (hne : (mapRegion s c).1 ≠ 0) {t : DeviceMap} (ht : t.Inv)
    (hext : (mapRegion s c).2.Extends t) {d : ℕ} (hd : d < c.size.toNat) :
    t.translate flags ((mapRegion s c).1 + d) = some ((c.baseAddr.toNat + d) % 2 ^ 52) := by
  have hlast := c.lastAddr_eq hwrap
  have hok := mapRegion_ok hperm hne
  rw [mapRegion_eq hperm hok] at hext ⊢
  obtain ⟨hmaps, hcount⟩ := maps_addPages hs hwrap hok
  have hsize : vmPageSize = 2097152 := rfl
  have hfirst : c.firstPhysPage = c.baseAddr.toNat / 2097152 := Nat.shiftRight_eq_div_pow _ 21
  have hend : c.lastPhysPage = c.lastAddr / 2097152 := Nat.shiftRight_eq_div_pow _ 21
  have hstays : HoldsPages t.pd3 (c.found s).1 c.firstPhysPage
      (c.lastPhysPage + 1 - c.firstPhysPage) := by
    intro k hk
    rw [hext.kept _ (by dsimp only; omega)]
    exact hmaps k hk
  have hoffset : c.baseAddr.toNat % vmPageSize + d <
      (c.lastPhysPage + 1 - c.firstPhysPage) * vmPageSize := by
    rw [hsize]
    omega
  have htrans := translate_of_maps hpae hstays hoffset
    (Nat.le_trans hcount (Nat.le_trans hext.used_le ht.used_le))
  dsimp only
  rw [Nat.add_assoc _ _ d, htrans, hfirst, hsize]
  exact congrArg some (by omega)

/-- A region that fills the table goes where its addresses are if its first page does. -/
theorem mapRegion_fills (hs : s.Inv) (hwrap : c.NoWrap) (hperm : ¬c.PermanentlyMapped)
    (hne : (mapRegion s c).1 ≠ 0) (hfirst : c.firstPhysPage = vmRegionStart / vmPageSize)
    (hcount : c.pageCount = maxRegionPages) : (mapRegion s c).1 = c.baseAddr.toNat := by
  have hok := mapRegion_ok hperm hne
  have hroom := (maps_addPages hs hwrap hok).2
  have hmax := (@addPages_spec (c.pagesLeft s) (c.found s).2 s hs.used_le).2.1
  have hpage : c.firstPhysPage = c.baseAddr.toNat / 2097152 := Nat.shiftRight_eq_div_pow _ 21
  have hstart : vmRegionStart = 3221225472 := rfl
  have hsize : vmPageSize = 2097152 := rfl
  rw [MapCall.pageCount] at hcount
  rw [mapRegion_eq hperm hok, show (c.found s).1 = 0 by omega]
  rw [hstart, hsize] at hfirst ⊢
  dsimp only
  omega

/-- A call fails only when there is no room for the pages the table does not have. The address of a
region at the start of the memory, which is its own, looks like a failure. -/
theorem mapRegion_eq_zero (hs : s.Inv) (h : (mapRegion s c).1 = 0) :
    (c.baseAddr.toNat = 0 ∧ c.PermanentlyMapped) ∨
      maxRegionPages < s.devicePagesUsed + c.pagesLeft s := by
  rw [mapRegion] at h
  by_cases hperm : c.PermanentlyMapped
  · rw [if_pos hperm] at h
    exact .inl ⟨h, hperm⟩
  rw [if_neg hperm] at h
  obtain ⟨-, -, -, -, hfailed⟩ := @addPages_spec (c.pagesLeft s) (c.found s).2 s hs.used_le
  split at h
  · next heq => exact .inr (hfailed (by rw [heq]))
  · next heq =>
    have hpos : 0 < vmRegionStart := by decide
    dsimp only at h
    omega

/-! ### Runs -/

theorem mapRun_inv (calls : List (MapCall arch)) : (mapRun calls).Inv :=
  (foldl_mapRegion DeviceMap.inv_initial calls).1

/-- What is in the table after a call stays there. -/
theorem mapRun_extends (before after : List (MapCall arch)) (c : MapCall arch) :
    (mapRegion (mapRun before) c).2.Extends (mapRun (before ++ c :: after)) := by
  have hrun : mapRun (before ++ c :: after) =
      after.foldl (fun s c => (mapRegion s c).2) (mapRegion (mapRun before) c).2 := by
    rw [mapRun, List.foldl_append, List.foldl_cons]
    rfl
  rw [hrun]
  exact (foldl_mapRegion (mapRegion_table (mapRun_inv before) c).1 after).2

/-- The empty table has room for a region that is not longer than it. -/
theorem mapRegion_initial (hperm : ¬c.PermanentlyMapped) (hcount : c.pageCount ≤ maxRegionPages) :
    (mapRegion .initial c).1 = vmRegionStart + c.baseAddr.toNat % vmPageSize := by
  have hok : (addPages (c.pagesLeft .initial) (c.found .initial).2 .initial).1 = true := by
    by_contra hno
    have hfull := (@addPages_spec (c.pagesLeft .initial) (c.found .initial).2 .initial
      (Nat.zero_le _)).2.2.2.2 (Bool.eq_false_iff.mpr hno)
    exact absurd hcount (Nat.not_le.mpr (by rwa [← Nat.zero_add c.pageCount]))
  rw [mapRegion_eq hperm hok]
  change vmRegionStart + 0 * vmPageSize + _ = _
  rw [Nat.zero_mul, Nat.add_zero]

/-- A page of device memory that belongs to the second entry of the table, and gets the first one if
it is mapped first. -/
def secondPage (arch : Arch) : MapCall arch := ⟨BitVec.ofNat _ 0xc0200000, 0x1000, false⟩

theorem secondPage_noWrap (arch : Arch) : (secondPage arch).NoWrap := by
  cases arch <;> exact ⟨by decide, by decide⟩

theorem mapRun_secondPage (arch : Arch) :
    mapRun [secondPage arch] = DeviceMap.initial.addPage 1537 := by
  cases arch <;> rfl

/-- The region that belongs to the first entry comes second then. -/
theorem mapRegion_secondPage (hwrap : c.NoWrap) (hsize : 0 < c.size.toNat)
    (hperm : ¬c.PermanentlyMapped) (hfirst : c.firstPhysPage = vmRegionStart / vmPageSize)
    (hcount : c.pageCount < maxRegionPages) :
    (mapRegion (mapRun [secondPage arch]) c).1 =
      vmRegionStart + vmPageSize + c.baseAddr.toNat % vmPageSize := by
  have hlast := c.lastAddr_eq hwrap
  have hpage : c.firstPhysPage = c.baseAddr.toNat / 2097152 := Nat.shiftRight_eq_div_pow _ 21
  have hend : c.lastPhysPage = c.lastAddr / 2097152 := Nat.shiftRight_eq_div_pow _ 21
  have hsecond : (DeviceMap.initial.addPage 1537).pd3 0 >>> vmPageShift = 1537 :=
    pageEntry_frame 1537
  have hne : ¬(1537 = c.firstPhysPage) := by
    rw [hfirst]
    decide
  have hfound : c.found (DeviceMap.initial.addPage 1537) = (1, c.firstPhysPage) := by
    change findPages _ _ _ 1 0 0 _ = _
    rw [findPages, if_pos (by omega), hsecond, if_neg hne]
    rfl
  have hok : (addPages (c.pagesLeft (DeviceMap.initial.addPage 1537))
      (c.found (DeviceMap.initial.addPage 1537)).2 (DeviceMap.initial.addPage 1537)).1 = true := by
    by_contra hno
    have hfull := (@addPages_spec (c.pagesLeft (DeviceMap.initial.addPage 1537))
      (c.found (DeviceMap.initial.addPage 1537)).2 (DeviceMap.initial.addPage 1537)
      (by decide)).2.2.2.2 (Bool.eq_false_iff.mpr hno)
    have hused : (DeviceMap.initial.addPage 1537).devicePagesUsed = 1 := rfl
    rw [hused, MapCall.pagesLeft, hfound] at hfull
    rw [MapCall.pageCount] at hcount
    dsimp only at hfull
    omega
  rw [mapRun_secondPage, mapRegion_eq hperm hok, hfound]
  dsimp only
  rw [Nat.one_mul]

/-! ### The condition -/

/-- A region that is permanently mapped and does not begin at address zero. -/
theorem MapCall.PermanentlyMapped.sound (hwrap : c.NoWrap) (hperm : c.PermanentlyMapped)
    (hbase : c.baseAddr.toNat ≠ 0 ∨ maxRegionPages < c.pageCount) : c.Sound flags := by
  have hlast := c.lastAddr_eq hwrap
  refine ⟨fun before after _ _ _ d hd => ?_, fun before _ h => ?_⟩
  · rw [mapRegion, if_pos hperm]
    exact translate_of_permanentlyMapped (mapRun_inv _) hperm (by dsimp only; omega)
      (by dsimp only; omega)
  · rw [mapRegion, if_pos hperm] at h
    exact c.lt_pagesLeft hwrap (hbase.resolve_left fun hne => hne h) _

/-- Any other region, where the results but zero are right. -/
theorem MapCall.sound_of_maps (hperm : ¬c.PermanentlyMapped)
    (hmaps : ∀ before after : List (MapCall arch), (mapRegion (mapRun before) c).1 ≠ 0 →
      ∀ d < c.size.toNat, (mapRun (before ++ c :: after)).translate flags
        ((mapRegion (mapRun before) c).1 + d) = some (c.baseAddr.toNat + d)) : c.Sound flags :=
  ⟨fun before after _ _ => hmaps before after, fun before _ h =>
    (mapRegion_eq_zero (mapRun_inv before) h).resolve_left fun hzero => hperm hzero.2⟩

/-- With PAE the addresses have to fit in an entry. -/
theorem MapCall.sound_of_pae (hwrap : c.NoWrap) (hperm : ¬c.PermanentlyMapped)
    (hpae : flags.pae = true) (hphys : c.baseAddr.toNat + c.size.toNat ≤ 2 ^ 52) :
    c.Sound flags := by
  refine c.sound_of_maps hperm fun before after hne d hd => ?_
  rw [mapRegion_maps hpae (mapRun_inv before) hwrap hperm hne (mapRun_inv _)
    (mapRun_extends before after c) hd, Nat.mod_eq_of_lt (by omega)]

/-- Without PAE a region is right that fills the table from where its addresses are. -/
theorem MapCall.sound_of_fills (hwrap : c.NoWrap) (hperm : ¬c.PermanentlyMapped)
    (hpae : flags.pae = false) (hfirst : c.firstPhysPage = vmRegionStart / vmPageSize)
    (hcount : c.pageCount = maxRegionPages) : c.Sound flags := by
  have hlast := c.lastAddr_eq hwrap
  have hend : c.lastPhysPage = c.lastAddr / 2097152 := Nat.shiftRight_eq_div_pow _ 21
  have hspace : vmSpaceEnd = 4294967295 := rfl
  have hstart : vmRegionStart / vmPageSize = 1536 := rfl
  have hmax : maxRegionPages = 256 := rfl
  refine c.sound_of_maps hperm fun before after hne d hd => ?_
  rw [mapRegion_fills (mapRun_inv before) hwrap hperm hne hfirst hcount]
  rw [MapCall.pageCount] at hcount
  exact translate_of_noPae hpae (by omega)

/-- A region longer than the table is never given an address. -/
theorem MapCall.sound_of_long (hwrap : c.NoWrap) (hperm : ¬c.PermanentlyMapped)
    (hcount : maxRegionPages < c.pageCount) : c.Sound flags := by
  refine c.sound_of_maps hperm fun before after hne d hd => absurd hcount (Nat.not_lt.mpr ?_)
  have hok := mapRegion_ok hperm hne
  have hroom := (maps_addPages (mapRun_inv before) hwrap hok).2
  have hmax := (@addPages_spec (c.pagesLeft (mapRun before)) (c.found (mapRun before)).2
    (mapRun before) (mapRun_inv before).used_le).2.1
  rw [MapCall.pageCount]
  omega

/-- The first call tells whether the addresses of a region fit in an entry. -/
theorem MapCall.Sound.le_of_pae (h : c.Sound flags) (hwrap : c.NoWrap)
    (hperm : ¬c.PermanentlyMapped) (hpae : flags.pae = true) (hpos : 0 < c.size.toNat)
    (hcount : c.pageCount ≤ maxRegionPages) :
    c.baseAddr.toNat + c.size.toNat ≤ 2 ^ 52 := by
  have hno : ∀ c' ∈ ([] : List (MapCall arch)), c'.NoWrap := List.forall_mem_nil _
  have hstart : vmRegionStart = 3221225472 := rfl
  have hinit := mapRegion_initial hperm hcount
  have hne : (mapRegion (mapRun ([] : List (MapCall arch))) c).1 ≠ 0 := by
    change (mapRegion .initial c).1 ≠ 0
    omega
  have hlast := h.maps [] [] hno hno hne (c.size.toNat - 1) (by omega)
  rw [mapRegion_maps hpae (mapRun_inv []) hwrap hperm hne (mapRun_inv _)
    (mapRun_extends [] [] c) (by omega)] at hlast
  have heq := Option.some.inj hlast
  omega

/-- Without PAE the first call tells that the region begins where the table does, and a call behind
another one that it fills the table. -/
theorem MapCall.Sound.fills_of_noPae (h : c.Sound flags) (hwrap : c.NoWrap)
    (hperm : ¬c.PermanentlyMapped) (hpae : flags.pae = false) (hpos : 0 < c.size.toNat)
    (hcount : c.pageCount ≤ maxRegionPages) :
    c.firstPhysPage = vmRegionStart / vmPageSize ∧ c.pageCount = maxRegionPages := by
  have hno : ∀ c' ∈ ([] : List (MapCall arch)), c'.NoWrap := List.forall_mem_nil _
  have hspace : vmSpaceEnd = 4294967295 := rfl
  have hstart : vmRegionStart = 3221225472 := rfl
  have hsize : vmPageSize = 2097152 := rfl
  have hinit := mapRegion_initial hperm hcount
  rw [hstart, hsize] at hinit
  have hne : (mapRegion (mapRun ([] : List (MapCall arch))) c).1 ≠ 0 := by
    change (mapRegion .initial c).1 ≠ 0
    omega
  have hzero := h.maps [] [] hno hno hne 0 hpos
  change DeviceMap.translate flags _ ((mapRegion .initial c).1 + 0) = _ at hzero
  rw [hinit, translate_of_noPae hpae (by omega)] at hzero
  have heq := Option.some.inj hzero
  have hpage : c.firstPhysPage = c.baseAddr.toNat / 2097152 := Nat.shiftRight_eq_div_pow _ 21
  have hfirst : c.firstPhysPage = vmRegionStart / vmPageSize := by
    rw [hpage, hstart, hsize]
    omega
  refine ⟨hfirst, Nat.le_antisymm hcount (Nat.le_of_not_lt fun hlt => ?_)⟩
  have hsecond := mapRegion_secondPage hwrap hpos hperm hfirst hlt
  rw [hstart, hsize] at hsecond
  have hwraps : ∀ c' ∈ [secondPage arch], c'.NoWrap := by
    rintro c' hc'
    rw [List.mem_singleton.mp hc']
    exact secondPage_noWrap arch
  have hother := h.maps [secondPage arch] [] hwraps hno (by omega) 0 hpos
  rw [hsecond, translate_of_noPae hpae (by omega)] at hother
  have heq' := Option.some.inj hother
  omega

/-- **Device mappings.** In all sequences of calls a region is mapped to what `map_region` returns
for it, and the result is zero only where there is no room, in exactly these cases. The region is
empty or has more pages than the table. It is permanently mapped and does not begin at address
zero, which looks like a failure. Or it is not, and there is paging and its addresses fit in an
entry; without PAE it must fill the table from where its addresses are.

The other calls of a sequence are on any regions that do not wrap, and need not be good ones
themselves. That the region fills the whole table is the one chance there is without PAE: its
addresses are then the physical ones, whichever pages the table has been given. -/
theorem mapCall_sound_iff (flags : CpuFlags) (hwrap : c.NoWrap) :
    c.Sound flags ↔ c.size.toNat = 0 ∨ maxRegionPages < c.pageCount ∨
      if c.PermanentlyMapped then c.baseAddr.toNat ≠ 0
      else if flags.pae = true then c.baseAddr.toNat + c.size.toNat ≤ 2 ^ 52
      else c.firstPhysPage = vmRegionStart / vmPageSize ∧ c.pageCount = maxRegionPages := by
  constructor
  · intro h
    rw [or_iff_not_imp_left, or_iff_not_imp_left]
    intro hempty hlong
    have hpos : 0 < c.size.toNat := Nat.pos_of_ne_zero hempty
    have hcount := Nat.le_of_not_lt hlong
    split_ifs with hperm hpae
    · intro hzero
      have hfull := h.fails [] (List.forall_mem_nil _) (by rwa [mapRegion, if_pos hperm])
      exact hlong (by rwa [← Nat.zero_add c.pageCount])
    · exact h.le_of_pae hwrap hperm hpae hpos hcount
    · exact h.fills_of_noPae hwrap hperm (Bool.eq_false_iff.mpr hpae) hpos hcount
  · have hpos := hwrap.1
    intro hcond
    by_cases hperm : c.PermanentlyMapped
    · rw [if_pos hperm] at hcond
      exact hperm.sound hwrap (by omega)
    rw [if_neg hperm] at hcond
    rcases hcond with hempty | hlong | hcond
    · exact c.sound_of_maps hperm fun before after _ d hd => absurd hd (by omega)
    · exact c.sound_of_long hwrap hperm hlong
    · split_ifs at hcond with hpae
      · exact c.sound_of_pae hwrap hperm hpae hcond
      · exact c.sound_of_fills hwrap hperm (Bool.eq_false_iff.mpr hpae) hcond.1 hcond.2

/-- A page of device memory at 16GB. -/
def highRegion : MapCall .b64 := ⟨0x400000000#64, 0x1000#64, false⟩

theorem mapCall_sound_highRegion : highRegion.Sound ⟨true, true⟩ :=
  (mapCall_sound_iff ⟨true, true⟩ ⟨by decide, by decide⟩).mpr (.inr (.inr (by decide)))

/-- On a CPU without PAE the registers of a device at 3.25GB get the address of the first byte
behind 3GB, and that is where they are looked for. -/
theorem not_mapCall_sound_noPae :
    ¬∀ (arch : Arch) (flags : CpuFlags) (c : MapCall arch), c.NoWrap → c.Sound flags := by
  intro h
  have hsound := h .b32 ⟨false, false⟩ ⟨0xd0000000#32, 0x1000#32, false⟩ ⟨by decide, by decide⟩
  have hmaps := hsound.maps [] [] (List.forall_mem_nil _) (List.forall_mem_nil _) (by decide) 0
    (by decide)
  exact absurd hmaps (by decide)

end Memtest
