import Memtest.Pmem.PmMap
import Memtest.Windows.Vmem

/-!
# The virtual memory map of a window (`setup_vm_map` in `app/main.c`)

`setup_vm_map` intersects the tested-page map with the user's limits and with a window, and puts
an entry into `vm_map` for each part of a segment that is left. With NUMA enabled such a part is
split further at the bounds of the memory affinity ranges, by asking
`smp_narrow_to_proximity_domain` (`system/smp.c`) again and again for the first piece of what
remains. Where that function finds no range, the code goes to the entry for the whole part.

This is the 64-bit build. Page numbers are below `2 ^ 52`, so they are natural numbers here, and
shifting them left is the only step that can overflow.
-/

namespace Memtest

/-- `MAX_MEM_SEGMENTS`. -/
def maxMemSegments : ℕ := 128

/-- `memory_affinity_t`. -/
structure MemoryAffinity where
  proximityDomainIdx : ℕ
  start : ℕ
  stop : ℕ
  deriving DecidableEq, Repr

/-- The results of `smp_narrow_to_proximity_domain`. -/
structure Narrowed where
  proximityDomainIdx : ℕ
  newStart : ℕ
  newEnd : ℕ
  deriving DecidableEq, Repr

/-- `smp_narrow_to_proximity_domain`, `none` where it returns 0. The first range that the pages
meet decides: a part that is in the range is cut at its end and belongs to its domain, and a part
in front of the range is cut at its start, with the same domain. -/
def smpNarrowToProximityDomain : List MemoryAffinity → ℕ → ℕ → Option Narrowed
  | [], _, _ => none
  | range :: ranges, start, stop =>
      if start ≥ range.start then
        if start < range.stop then
          if stop ≤ range.stop then some ⟨range.proximityDomainIdx, start, stop⟩
          else some ⟨range.proximityDomainIdx, start, range.stop⟩
        else smpNarrowToProximityDomain ranges start stop
      else if stop < range.start then smpNarrowToProximityDomain ranges start stop
      else some ⟨range.proximityDomainIdx, start, range.start⟩

/-- The user's limits `pm_limit_lower` and `pm_limit_upper`, in pages. -/
structure PageLimits where
  lower : ℕ
  upper : ℕ
  deriving DecidableEq, Repr

/-- `enable_numa` and the memory affinity ranges. -/
structure NumaConfig where
  enableNuma : Bool
  memoryAffinityRanges : List MemoryAffinity
  deriving DecidableEq, Repr

/-- What `setup_vm_map` writes: `vm_map[0 .. vm_map_size - 1]` and `num_mapped_pages`. -/
structure VmMapState where
  vmMap : List VmSegment
  numMappedPages : ℕ
  deriving DecidableEq, Repr

/-- `sizeof(testword_t)` of the 64-bit build. -/
def testwordBytes : ℕ := Arch.b64.wordBytes

/-- The address of a page, `page << PAGE_SHIFT` in 64-bit arithmetic. -/
def pageAddr (page : ℕ) : ℕ := page <<< pageShift % 2 ^ 64

/-- The number of the page below, in 64-bit arithmetic. -/
def prevPage (page : ℕ) : ℕ := (page + (2 ^ 64 - 1)) % 2 ^ 64

/-- The entry for the pages from `lo` up to, not including, `hi`. -/
def vmSegment (proximityDomainIdx lo hi : ℕ) : VmSegment where
  pmBaseAddr := lo
  start := firstWordMapping lo
  stop := lastWordMapping (prevPage hi) testwordBytes
  proximityDomainIdx := proximityDomainIdx

/-- The code at `non_numa_vm_map_entry`. Without NUMA it leaves `proximity_domain_idx` as it was,
and nothing reads it; the fallback sets it to 0. -/
def nonNumaEntry (segStart segEnd : ℕ) (s : VmMapState) : VmMapState where
  vmMap := s.vmMap ++ [vmSegment 0 segStart segEnd]
  numMappedPages := s.numMappedPages + (segEnd - segStart)

/-- The entry the splitting loop creates for the addresses from `newStart` to `newEnd`. -/
def numaEntry (n : Narrowed) (s : VmMapState) : VmMapState where
  vmMap := s.vmMap ++
    [vmSegment n.proximityDomainIdx (n.newStart >>> pageShift) (n.newEnd >>> pageShift)]
  numMappedPages := s.numMappedPages + (n.newEnd - n.newStart) >>> pageShift

/-- The `while (1)` loop over the parts of a segment. Its first argument is the number of entries
that `vm_map` still has room for: the loop ends when there is none. -/
def splitLoop (ranges : List MemoryAffinity) (segStart segEnd : ℕ) :
    ℕ → ℕ → VmMapState → VmMapState
  | 0, _, s => s
  | room + 1, origStart, s =>
      match smpNarrowToProximityDomain ranges origStart (pageAddr segEnd) with
      | some n =>
          if n.newStart ≠ origStart ∨ n.newEnd ≠ pageAddr segEnd then
            splitLoop ranges segStart segEnd room n.newEnd (numaEntry n s)
          else numaEntry n s
      | none => nonNumaEntry segStart segEnd s

/-- The code for a part of a segment that needs to be tested. -/
def mapPart (numa : NumaConfig) (s : VmMapState) (part : ℕ × ℕ) : VmMapState :=
  if numa.enableNuma then
    splitLoop numa.memoryAffinityRanges part.1 part.2 (maxMemSegments - s.vmMap.length)
      (pageAddr part.1) s
  else nonNumaEntry part.1 part.2 s

/-- The loop body of `setup_vm_map`, for the window after it has been reduced to the limits. -/
def mapSegment (numa : NumaConfig) (winStart winEnd : ℕ) (s : VmMapState) (seg : PmSegment) :
    VmMapState :=
  let segStart := if seg.start.toNat ≤ winStart then winStart else seg.start.toNat
  let segEnd := if seg.stop.toNat ≥ winEnd then winEnd else seg.stop.toNat
  if segStart < segEnd ∧ segStart < winEnd ∧ segEnd > winStart then
    mapPart numa s (segStart, segEnd)
  else s

/-- `setup_vm_map`. -/
def setupVmMap (numa : NumaConfig) (limits : PageLimits) (pmMap : List PmSegment)
    (winStart winEnd : ℕ) : VmMapState :=
  let winStart := if winStart < limits.lower then limits.lower else winStart
  let winEnd := if winEnd > limits.upper then limits.upper else winEnd
  if winStart ≥ winEnd then ⟨[], 0⟩
  else pmMap.foldl (mapSegment numa winStart winEnd) ⟨[], 0⟩

/-! ### Physical pages -/

/-- The windows `test_all_windows` walks through: below 4MB, from there to 1GB, and then one
gigabyte at a time. -/
def IsWindow (winStart winEnd : ℕ) : Prop :=
  (winStart = 0 ∧ winEnd = 1024) ∨ (winStart = 1024 ∧ winEnd = vmWindowSize) ∨
    ∃ k, 1 ≤ k ∧ winStart = k * vmWindowSize ∧ winEnd = (k + 1) * vmWindowSize

/-- A tested-page map as `pmem_init` leaves it: sorted and disjoint segments of pages below the
top of the address space. -/
structure SortedPmMap (pmMap : List PmSegment) : Prop where
  ordered : ∀ seg ∈ pmMap, seg.start.toNat ≤ seg.stop.toNat
  pairwise : pmMap.Pairwise fun a b => a.stop.toNat ≤ b.start.toNat
  bound : ∀ seg ∈ pmMap, seg.stop.toNat < 2 ^ 52

/-- The pages of the tested-page map inside the limits. -/
def testedPages (limits : PageLimits) (pmMap : List PmSegment) : Set ℕ :=
  {page | (∃ seg ∈ pmMap, seg.Contains page) ∧ limits.lower ≤ page ∧ page < limits.upper}

/-- The pages to test inside a range of pages. -/
def pagesToTest (limits : PageLimits) (pmMap : List PmSegment) (lo hi : ℕ) : Set ℕ :=
  {page | page ∈ testedPages limits pmMap ∧ lo ≤ page ∧ page < hi}

/-! ### The parts of the segments inside a window -/

/-- The part of a segment inside a range of pages. -/
def clip (lo hi : ℕ) (seg : PmSegment) : Option (ℕ × ℕ) :=
  if max seg.start.toNat lo < min seg.stop.toNat hi then
    some (max seg.start.toNat lo, min seg.stop.toNat hi)
  else none

/-- The parts of the segments inside a window and the limits. -/
def parts (limits : PageLimits) (pmMap : List PmSegment) (winStart winEnd : ℕ) : List (ℕ × ℕ) :=
  pmMap.filterMap (clip (max winStart limits.lower) (min winEnd limits.upper))

theorem clip_eq_some_iff {lo hi : ℕ} {seg : PmSegment} {part : ℕ × ℕ} :
    clip lo hi seg = some part ↔ part.1 < part.2 ∧
      part.1 = max seg.start.toNat lo ∧ part.2 = min seg.stop.toNat hi := by
  obtain ⟨a, b⟩ := part
  rw [clip]
  split
  · simp only [Option.some.injEq, Prod.mk.injEq]
    omega
  · simp only [reduceCtorEq, false_iff]
    omega

theorem setupVmMap_eq (numa : NumaConfig) (limits : PageLimits) (pmMap : List PmSegment)
    (winStart winEnd : ℕ) :
    setupVmMap numa limits pmMap winStart winEnd =
      (parts limits pmMap winStart winEnd).foldl (mapPart numa) ⟨[], 0⟩ := by
  have hlo : (if winStart < limits.lower then limits.lower else winStart) =
      max winStart limits.lower := by split <;> omega
  have hhi : (if winEnd > limits.upper then limits.upper else winEnd) =
      min winEnd limits.upper := by split <;> omega
  have hstep : ∀ lo hi : ℕ, lo < hi → ∀ (s : VmMapState) (seg : PmSegment),
      mapSegment numa lo hi s seg = ((clip lo hi seg).map (mapPart numa s)).getD s := by
    intro lo hi hlt s seg
    have h1 : (if seg.start.toNat ≤ lo then lo else seg.start.toNat) =
        max seg.start.toNat lo := by split <;> omega
    have h2 : (if seg.stop.toNat ≥ hi then hi else seg.stop.toNat) =
        min seg.stop.toNat hi := by split <;> omega
    rw [mapSegment, clip, h1, h2]
    by_cases hlt' : max seg.start.toNat lo < min seg.stop.toNat hi
    · rw [if_pos hlt', if_pos ⟨hlt', by omega, by omega⟩]
      rfl
    · rw [if_neg hlt', if_neg fun h => hlt' h.1]
      rfl
  rw [setupVmMap, hlo, hhi, parts]
  generalize max winStart limits.lower = lo
  generalize min winEnd limits.upper = hi
  split
  · next hge =>
    have hnone : pmMap.filterMap (clip lo hi) = [] :=
      List.filterMap_eq_nil_iff.mpr fun seg _ => if_neg (by omega)
    rw [hnone]
    rfl
  · next hlt =>
    generalize (⟨[], 0⟩ : VmMapState) = s
    induction pmMap generalizing s with
    | nil => rfl
    | cons seg pmMap ih =>
      rw [List.foldl_cons, ih, hstep lo hi (by omega), List.filterMap_cons]
      cases clip lo hi seg <;> rfl

section

variable {limits : PageLimits} {pmMap : List PmSegment} {winStart winEnd : ℕ}

theorem parts_pairwise (h : SortedPmMap pmMap) :
    (parts limits pmMap winStart winEnd).Pairwise fun a b => a.2 ≤ b.1 := by
  rw [parts, List.pairwise_filterMap]
  refine h.pairwise.imp fun {a b} hab p hp q hq => ?_
  have h1 := clip_eq_some_iff.mp hp
  have h2 := clip_eq_some_iff.mp hq
  omega

theorem lt_of_mem_parts {part : ℕ × ℕ} (hp : part ∈ parts limits pmMap winStart winEnd) :
    part.1 < part.2 ∧ winStart ≤ part.1 ∧ part.2 ≤ winEnd ∧ limits.lower ≤ part.1 ∧
      part.2 ≤ limits.upper := by
  obtain ⟨seg, -, hclip⟩ := List.mem_filterMap.mp hp
  have := clip_eq_some_iff.mp hclip
  omega

theorem lt_bound_of_mem_parts (h : SortedPmMap pmMap) {part : ℕ × ℕ}
    (hp : part ∈ parts limits pmMap winStart winEnd) : part.2 < 2 ^ 52 := by
  obtain ⟨seg, hseg, hclip⟩ := List.mem_filterMap.mp hp
  have := clip_eq_some_iff.mp hclip
  have := h.bound seg hseg
  omega

/-- The parts hold just the pages to test in the window. -/
theorem mem_pagesToTest_iff {page : ℕ} :
    page ∈ pagesToTest limits pmMap winStart winEnd ↔
      ∃ part ∈ parts limits pmMap winStart winEnd, part.1 ≤ page ∧ page < part.2 := by
  constructor
  · rintro ⟨⟨⟨seg, hseg, h1, h2⟩, h3, h4⟩, h5, h6⟩
    refine ⟨(max seg.start.toNat (max winStart limits.lower),
      min seg.stop.toNat (min winEnd limits.upper)), ?_, by dsimp only; omega, by
      dsimp only; omega⟩
    exact List.mem_filterMap.mpr ⟨seg, hseg, clip_eq_some_iff.mpr ⟨by dsimp only; omega, rfl, rfl⟩⟩
  · rintro ⟨part, hp, h1, h2⟩
    obtain ⟨seg, hseg, hclip⟩ := List.mem_filterMap.mp hp
    have := clip_eq_some_iff.mp hclip
    exact ⟨⟨⟨seg, hseg, ⟨by omega, by omega⟩⟩, by omega, by omega⟩, by omega, by omega⟩

end

/-! ### The words of an entry -/

/-- **The words of an entry.** In a window that is mapped, the entry for the pages from `lo` to
`hi` covers just these pages. -/
theorem covers_vmSegment {idx lo hi page k mappedWindow : ℕ} (hlt : lo < hi)
    (hwin : hi ≤ 524288 ∨ (k * 262144 ≤ lo ∧ hi ≤ (k + 1) * 262144 ∧ 2 ≤ k ∧ mappedWindow = k))
    (hhi : hi ≤ 2 ^ 64) :
    (vmSegment idx lo hi).Covers mappedWindow page ↔ lo ≤ page ∧ page < hi := by
  have hprev : prevPage hi = hi - 1 := by rw [prevPage]; omega
  have hlast : lastWordMapping (hi - 1) testwordBytes = firstWordMapping (hi - 1) + 4088 := rfl
  simp only [VmSegment.Covers, vmSegment, hprev, hlast, pageOf_eq]
  rcases hwin with hlow | ⟨hklo, hkhi, hk, rfl⟩
  · rw [firstWordMapping_of_lt (by omega), firstWordMapping_of_lt (by omega)]
    constructor
    · rintro ⟨addr, h1, h2, rfl⟩
      rw [if_neg (by omega)]
      omega
    · rintro ⟨h1, h2⟩
      exact ⟨page * 4096, by omega, by omega, by rw [if_neg (by omega)]; omega⟩
  · rw [firstWordMapping_of_le (by omega), firstWordMapping_of_le (by omega)]
    have hmod : ∀ p, mappedWindow * 262144 ≤ p → p < (mappedWindow + 1) * 262144 →
        p % 262144 = p - mappedWindow * 262144 := fun p h1 h2 => by omega
    rw [hmod lo (by omega) (by omega), hmod (hi - 1) (by omega) (by omega)]
    constructor
    · rintro ⟨addr, h1, h2, rfl⟩
      rw [if_pos (by omega)]
      omega
    · rintro ⟨h1, h2⟩
      obtain ⟨d, rfl⟩ := Nat.exists_eq_add_of_le (hklo.trans h1)
      refine ⟨(524288 + d) * 4096, Nat.mul_le_mul_right _ (by omega), ?_, ?_⟩
      · exact (Nat.mul_le_mul_right _ (by omega)).trans (Nat.le_add_right _ _)
      · rw [Nat.mul_div_cancel _ (by decide), if_pos (by omega)]
        omega

end Memtest
