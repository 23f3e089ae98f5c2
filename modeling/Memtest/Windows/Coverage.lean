import Memtest.Windows.AllWindows
import Memtest.Lib.DisjointSets
import Mathlib.Order.CompletePartialOrder
import Mathlib.Order.Interval.Finset.Nat

/-!
# The windows test every page once

Without NUMA an entry of `vm_map` stands for a part of a segment, and the parts of a window are
just the pages to test in it. The windows the loop walks through follow one another without gaps
up to the end of the tested-page map, so each page to test is covered by exactly one entry of one
window.
-/

namespace Memtest

open DisjointSets

/-! ### One window -/

/-- The sets of physical pages the entries of `vm_map` cover. -/
def VmMapState.pageSets (vm : VmMapState) (mappedWindow : ℕ) : List (Set ℕ) :=
  vm.vmMap.map fun seg => {page | seg.Covers mappedWindow page}

section

variable {numa : NumaConfig} {limits : PageLimits} {pmMap : List PmSegment} {winStart winEnd : ℕ}

theorem setupVmMap_nonNuma (hnuma : numa.enableNuma = false) :
    setupVmMap numa limits pmMap winStart winEnd =
      ⟨(parts limits pmMap winStart winEnd).map fun p => vmSegment 0 p.1 p.2,
        ((parts limits pmMap winStart winEnd).map fun p => p.2 - p.1).sum⟩ := by
  have hpart : ∀ s p, mapPart numa s p = nonNumaEntry p.1 p.2 s := fun s p => by
    rw [mapPart, hnuma]
    rfl
  rw [setupVmMap_eq]
  suffices h : ∀ (l : List (ℕ × ℕ)) (s : VmMapState), l.foldl (mapPart numa) s =
      ⟨s.vmMap ++ l.map fun p => vmSegment 0 p.1 p.2,
        s.numMappedPages + (l.map fun p => p.2 - p.1).sum⟩ by
    simpa using h (parts limits pmMap winStart winEnd) ⟨[], 0⟩
  intro l
  induction l with
  | nil => simp
  | cons p l ih =>
    intro s
    rw [List.foldl_cons, ih, hpart, nonNumaEntry]
    simp [Nat.add_assoc]

/-- The window is mapped: it lies below two gigabytes, where the mapping is the identity, or the
third gigabyte of the address space shows it. -/
def IsMapped (winStart winEnd mappedWindow : ℕ) : Prop :=
  winEnd ≤ 524288 ∨ (2 ≤ mappedWindow ∧ winStart = mappedWindow * 262144 ∧
    winEnd = (mappedWindow + 1) * 262144)

/-- Each entry covers the part it was made for. -/
theorem pageSets_nonNuma (hnuma : numa.enableNuma = false) (hpm : SortedPmMap pmMap)
    {mappedWindow : ℕ} (hmapped : IsMapped winStart winEnd mappedWindow) :
    (setupVmMap numa limits pmMap winStart winEnd).pageSets mappedWindow =
      (parts limits pmMap winStart winEnd).map fun p => Set.Ico p.1 p.2 := by
  rw [setupVmMap_nonNuma hnuma, VmMapState.pageSets, List.map_map]
  refine List.map_congr_left fun p hp => ?_
  have hp' := lt_of_mem_parts hp
  have hbound := lt_bound_of_mem_parts hpm hp
  ext page
  rw [Set.mem_Ico]
  refine covers_vmSegment (k := mappedWindow) hp'.1 ?_ (by omega)
  rcases hmapped with h | ⟨h1, h2, h3⟩
  · exact .inl (by omega)
  · exact .inr ⟨by omega, by omega, h1, rfl⟩

theorem pairwise_disjoint_parts (hpm : SortedPmMap pmMap) :
    ((parts limits pmMap winStart winEnd).map fun p => Set.Ico p.1 p.2).Pairwise Disjoint := by
  rw [List.pairwise_map]
  refine (parts_pairwise hpm).imp fun {a b} hab => Set.disjoint_left.mpr fun x hx hx' => ?_
  rw [Set.mem_Ico] at hx hx'
  omega

theorem union_parts :
    union ((parts limits pmMap winStart winEnd).map fun p => Set.Ico p.1 p.2) =
      pagesToTest limits pmMap winStart winEnd := by
  ext page
  rw [mem_pagesToTest_iff, mem_union]
  simp [List.mem_map]

/-- `num_mapped_pages` is the number of the pages of the window. -/
theorem numMappedPages_nonNuma (hnuma : numa.enableNuma = false) (hpm : SortedPmMap pmMap) :
    (setupVmMap numa limits pmMap winStart winEnd).numMappedPages =
      (pagesToTest limits pmMap winStart winEnd).ncard := by
  have hfin : ∀ s ∈ (parts limits pmMap winStart winEnd).map fun p => Set.Ico p.1 p.2,
      s.Finite := by
    intro s hs
    obtain ⟨p, -, rfl⟩ := List.mem_map.mp hs
    exact Set.finite_Ico p.1 p.2
  rw [← union_parts, ncard_union (pairwise_disjoint_parts hpm) hfin, setupVmMap_nonNuma hnuma,
    List.map_map]
  refine congrArg List.sum (List.map_congr_left fun p _ => ?_)
  rw [Function.comp_apply, Set.ncard_eq_toFinset_card', Set.toFinset_Ico, Nat.card_Ico]

end

/-! ### The windows -/

/-- The page at which window `k` starts and window `k - 1` ends. -/
def winBound : ℕ → ℕ
  | 0 => 0
  | 1 => 1024
  | k + 2 => (k + 1) * 262144

theorem winBound_lt_succ (k : ℕ) : winBound k < winBound (k + 1) := by
  match k with
  | 0 => decide
  | 1 => decide
  | k + 2 =>
    rw [winBound, winBound]
    omega

theorem winBound_mono : Monotone winBound := monotone_nat_of_le_succ fun k =>
  (winBound_lt_succ k).le

theorem le_winBound (k : ℕ) : k ≤ winBound k := by
  induction k with
  | zero => exact Nat.zero_le _
  | succ k ih => exact Nat.succ_le_of_lt (lt_of_le_of_lt ih (winBound_lt_succ k))

theorem isWindow_winBound (k : ℕ) : IsWindow (winBound k) (winBound (k + 1)) := by
  match k with
  | 0 => exact .inl ⟨rfl, rfl⟩
  | 1 => exact .inr (.inl ⟨rfl, rfl⟩)
  | k + 2 => exact .inr (.inr ⟨k + 1, by omega, rfl, rfl⟩)

/-- Every page is in a window. -/
theorem exists_winBound (page : ℕ) : ∃ k, winBound k ≤ page ∧ page < winBound (k + 1) := by
  rcases Nat.lt_or_ge page 1024 with h | h
  · exact ⟨0, Nat.zero_le _, h⟩
  · rcases Nat.lt_or_ge page 262144 with h' | h'
    · exact ⟨1, h, h'⟩
    · obtain ⟨q, hq⟩ := Nat.exists_eq_add_of_le' (show 1 ≤ page / 262144 by omega)
      refine ⟨q + 2, ?_, ?_⟩
      · rw [winBound, ← hq]
        exact Nat.div_mul_le_self page 262144
      · rw [winBound, ← hq]
        omega

/-- A window is mapped once `map_window` has been called for a page in it. -/
theorem isMapped_of_mapWindow {flags : CpuFlags} {k page m m' : ℕ} (hlo : winBound k ≤ page)
    (hhi : page < winBound (k + 1)) (h : mapWindow flags page m = some m') :
    IsMapped (winBound k) (winBound (k + 1)) m' := by
  rw [mapWindow, Nat.shiftRight_eq_div_pow] at h
  match k with
  | 0 => exact .inl (by decide)
  | 1 => exact .inl (by decide)
  | 2 => exact .inl (by decide)
  | k + 3 =>
    refine .inr ?_
    simp only [winBound] at hlo hhi ⊢
    have hwin : page / 2 ^ (30 - pageShift) = k + 2 := by
      rw [show 2 ^ (30 - pageShift) = 262144 from rfl]
      omega
    rw [hwin, if_neg (by omega)] at h
    have hm : m' = k + 2 := by
      split at h
      · split at h
        · exact (Option.some.inj h).symm
        · simp at h
      · split at h
        · simp at h
        · exact (Option.some.inj h).symm
    subst hm
    exact ⟨by omega, rfl, rfl⟩

/-! ### The loop -/

/-- A visit of window `k`. -/
structure VisitsWindow (cfg : WindowConfig) (k : ℕ) (v : Visit) : Prop where
  winStart : v.winStart = winBound k
  winEnd : v.winEnd = winBound (k + 1)
  vm : v.vm = setupVmMap cfg.numa cfg.limits cfg.pmMap (winBound k) (winBound (k + 1))
  mapped : ∃ m, mapFirst cfg.flags v.vm m = some v.mappedWindow

/-- Whether `map_window` succeeds does not depend on the window that was mapped before. -/
theorem mapFirst_isSome_eq (flags : CpuFlags) (vm : VmMapState) (m m' : ℕ) :
    (mapFirst flags vm m).isSome = (mapFirst flags vm m').isSome := by
  simp only [mapFirst, mapWindow]
  split_ifs <;> rfl

/-- The loop is about to set up window `k`. -/
structure AtWindow (cfg : WindowConfig) (k : ℕ) (s : WindowState) : Prop where
  windowNum : skipWindow cfg s.windowNum = k
  windowEnd : 2 ≤ k → s.windowEnd = winBound k

section

variable {cfg : WindowConfig}

theorem skipWindow_of_pos {k : ℕ} (hk : 0 < k) : skipWindow cfg k = k := by
  have h1 : ¬ (k = 0 ∧ cfg.stages > 1) := by omega
  have h2 : ¬ (k = 0 ∧ cfg.limits.lower ≥ lowLoadLimit) := by omega
  simp only [skipWindow, h1, h2, if_false]

theorem skipWindow_skipWindow (k : ℕ) : skipWindow cfg (skipWindow cfg k) = skipWindow cfg k := by
  rcases Nat.eq_zero_or_pos (skipWindow cfg k) with h | h
  · rcases Nat.eq_zero_or_pos k with hk | hk
    · rw [h, ← hk, h]
      exact hk.symm
    · rw [skipWindow_of_pos hk, skipWindow_of_pos hk]
  · rw [skipWindow_of_pos h]

theorem nextWindow_spec {k : ℕ} {s : WindowState} (hnum : s.windowNum = k)
    (hend : 2 ≤ k → s.windowEnd = winBound k) :
    (nextWindow s).windowStart = winBound k ∧ (nextWindow s).windowEnd = winBound (k + 1) ∧
      (nextWindow s).windowNum = k := by
  match k, hend with
  | 0, _ => simp [nextWindow, hnum, lowLoadLimit, pageShift, winBound]
  | 1, _ => simp [nextWindow, hnum, lowLoadLimit, pageShift, winBound, vmWindowSize]
  | k + 2, hend =>
    have h := hend (by omega)
    have hsucc : winBound (k + 2 + 1) = winBound (k + 2) + vmWindowSize := by
      rw [winBound, winBound, vmWindowSize_eq]
      omega
    simp only [nextWindow, hnum, h, hsucc, and_self]

/-- The state behind the relocation. -/
theorem AtWindow.runAt {k : ℕ} {s : WindowState} (h : AtWindow cfg k s) (loadAddr : LoadAddr) :
    AtWindow cfg k (runAt loadAddr (enterWindow cfg s)) where
  windowNum := (skipWindow_skipWindow _).trans h.windowNum
  windowEnd := h.windowEnd

/-- The window the loop body sets up, and the state behind it. -/
theorem AtWindow.next {k : ℕ} {s : WindowState} (h : AtWindow cfg k s) :
    (nextWindow (enterWindow cfg s)).windowStart = winBound k ∧
      (nextWindow (enterWindow cfg s)).windowEnd = winBound (k + 1) ∧
      ∀ m, AtWindow cfg (k + 1) (leaveWindow m (nextWindow (enterWindow cfg s))) := by
  obtain ⟨hstart, hend, hnum⟩ := nextWindow_spec (s := enterWindow cfg s) h.windowNum h.windowEnd
  refine ⟨hstart, hend, fun m => ⟨?_, fun _ => hend⟩⟩
  rw [leaveWindow, hnum]
  exact skipWindow_of_pos (Nat.succ_pos k)

/-- **The windows of a run.** A run that starts at window `k` sets up the windows from `k` on, one
after the other, up to the first that reaches the end of the tested-page map. -/
theorem testAllWindows_spec
    (hmap : ∀ k m, (mapFirst cfg.flags
      (setupVmMap cfg.numa cfg.limits cfg.pmMap (winBound k) (winBound (k + 1))) m).isSome)
    {fuel k : ℕ} {s : WindowState} {visits : List Visit} (hs : AtWindow cfg k s)
    (h : testAllWindows cfg fuel s = some visits) :
    ∃ n, cfg.lastEnd ≤ winBound (k + n + 1) ∧
      visits.map Visit.range =
        (List.range' k (n + 1)).map (fun j => (winBound j, winBound (j + 1))) ∧
      ∀ v ∈ visits, ∃ j, VisitsWindow cfg j v := by
  induction fuel generalizing k s visits with
  | zero => simp [testAllWindows] at h
  | succ fuel ih =>
    rw [testAllWindows] at h
    dsimp only at h
    split at h
    · exact ih (hs.runAt _) h
    · obtain ⟨hstart, hend, hnext⟩ := hs.next
      generalize nextWindow (enterWindow cfg s) = t at *
      rw [hstart, hend] at h
      obtain ⟨m, hm⟩ := Option.isSome_iff_exists.mp (hmap k t.mappedWindow)
      rw [hm] at h
      dsimp only at h
      have hvisit : VisitsWindow cfg k ⟨winBound k, winBound (k + 1),
          setupVmMap cfg.numa cfg.limits cfg.pmMap (winBound k) (winBound (k + 1)), m⟩ :=
        ⟨rfl, rfl, rfl, t.mappedWindow, hm⟩
      split at h
      · obtain ⟨rest, hrest, rfl⟩ := Option.map_eq_some_iff.mp h
        obtain ⟨n, hn, hranges, hvisits⟩ := ih (hnext m) hrest
        refine ⟨n + 1, by rwa [show k + (n + 1) = k + 1 + n by omega], ?_, fun v hv => ?_⟩
        · rw [List.range'_succ, List.map_cons, List.map_cons, hranges]
          rfl
        · rcases List.mem_cons.mp hv with rfl | hv
          · exact ⟨k, hvisit⟩
          · exact hvisits v hv
      · next hlast =>
        obtain rfl := Option.some.inj h
        refine ⟨0, Nat.le_of_not_lt hlast, rfl, fun v hv => ?_⟩
        rw [List.mem_singleton.mp hv]
        exact ⟨k, hvisit⟩

/-- A program that is not where the window needs it is relocated first. -/
theorem exists_testAllWindows_of_loaded {k : ℕ}
    (h : ∀ s, AtWindow cfg k s →
      (enterWindow cfg s).loadAddr = targetLoadAddr (enterWindow cfg s).windowNum →
      ∃ fuel, (testAllWindows cfg fuel s).isSome)
    {s : WindowState} (hs : AtWindow cfg k s) : ∃ fuel, (testAllWindows cfg fuel s).isSome := by
  by_cases hload : (enterWindow cfg s).loadAddr = targetLoadAddr (enterWindow cfg s).windowNum
  · exact h s hs hload
  · obtain ⟨fuel, hfuel⟩ := h _ (hs.runAt (targetLoadAddr (enterWindow cfg s).windowNum))
      (congrArg targetLoadAddr (skipWindow_skipWindow s.windowNum).symm)
    refine ⟨fuel + 1, ?_⟩
    rw [testAllWindows]
    dsimp only
    rwa [if_pos hload]

/-- **The run ends.** -/
theorem exists_testAllWindows {n k : ℕ} {s : WindowState} (hs : AtWindow cfg k s)
    (hn : cfg.lastEnd ≤ winBound (k + n + 1)) : ∃ fuel, (testAllWindows cfg fuel s).isSome := by
  induction n generalizing k s with
  | zero =>
    refine exists_testAllWindows_of_loaded (fun s hs hload => ⟨1, ?_⟩) hs
    have hlast : ¬ winBound (k + 1) < cfg.lastEnd := Nat.not_lt.mpr hn
    rw [testAllWindows]
    dsimp only
    rw [if_neg (not_not.mpr hload), hs.next.2.1]
    split
    · rfl
    · rw [if_neg hlast]
      rfl
  | succ n ih =>
    refine exists_testAllWindows_of_loaded (fun s hs hload => ?_) hs
    have hn' : cfg.lastEnd ≤ winBound (k + 1 + n + 1) := by
      rwa [show k + 1 + n + 1 = k + (n + 1) + 1 by omega]
    -- the fuel is found for the value `map_window` leaves
    cases hm : mapFirst cfg.flags (setupVmMap cfg.numa cfg.limits cfg.pmMap
        (nextWindow (enterWindow cfg s)).windowStart (nextWindow (enterWindow cfg s)).windowEnd)
        (nextWindow (enterWindow cfg s)).mappedWindow with
    | none =>
      refine ⟨1, ?_⟩
      rw [testAllWindows]
      dsimp only
      rw [if_neg (not_not.mpr hload), hm]
      rfl
    | some m =>
      obtain ⟨fuel, hfuel⟩ := ih (hs.next.2.2 m) hn'
      refine ⟨fuel + 1, ?_⟩
      rw [testAllWindows]
      dsimp only
      rw [if_neg (not_not.mpr hload), hm]
      dsimp only
      split
      · rwa [Option.isSome_map]
      · rfl

theorem skipWindow_zero_le : skipWindow cfg 0 ≤ 1 := by
  simp only [skipWindow]
  split <;> split <;> omega

theorem atWindow_init (loadAddr : LoadAddr) (mappedWindow : ℕ) :
    AtWindow cfg (skipWindow cfg 0) (.init loadAddr mappedWindow) where
  windowNum := rfl
  windowEnd := fun h => absurd (h.trans skipWindow_zero_le) (by decide)

/-! ### Every page once -/

/-- `map_window` succeeds for every page of the tested-page map. Where it fails,
`test_all_windows` leaves the loop, and the pages above are not tested by anyone; on a 32-bit
build without PAE this is the case for pages from 4GB on. -/
def MapsTestedPages (cfg : WindowConfig) : Prop :=
  ∀ page mappedWindow, (∃ seg ∈ cfg.pmMap, seg.Contains page) →
    (mapWindow cfg.flags page mappedWindow).isSome

/-- A set of physical pages is covered once by the entries of all windows, and the windows count
their pages. An entry is a pair of virtual addresses, which the mapped window of its visit
translates; `once` compares the entries of all windows with one another, so a page is neither
tested twice in one window nor in two windows. -/
structure TestsOnce (pages : Set ℕ) (visits : List Visit) : Prop where
  isWindow : ∀ v ∈ visits, IsWindow v.winStart v.winEnd
  covers : ∀ page, page ∈ pages ↔
    ∃ v ∈ visits, ∃ seg ∈ v.vm.vmMap, seg.Covers v.mappedWindow page
  once : (visits.flatMap fun v => v.vm.pageSets v.mappedWindow).Pairwise Disjoint
  counts : ∀ v ∈ visits,
    v.vm.numMappedPages = {page | ∃ seg ∈ v.vm.vmMap, seg.Covers v.mappedWindow page}.ncard
  total : (visits.map fun v => v.vm.numMappedPages).sum = pages.ncard

/-- With pages to test in the window, the first entry starts at one of them. -/
theorem exists_pmBaseAddr {numa : NumaConfig} {limits : PageLimits} {pmMap : List PmSegment}
    {winStart winEnd : ℕ} (hnuma : numa.enableNuma = false)
    (h : (setupVmMap numa limits pmMap winStart winEnd).numMappedPages ≠ 0) :
    ((setupVmMap numa limits pmMap winStart winEnd).vmMap.head?.map
      VmSegment.pmBaseAddr).getD 0 ∈ pagesToTest limits pmMap winStart winEnd := by
  rw [setupVmMap_nonNuma hnuma] at h ⊢
  rw [mem_pagesToTest_iff]
  cases hparts : parts limits pmMap winStart winEnd with
  | nil => simp [hparts] at h
  | cons p ps =>
    have hp : p ∈ parts limits pmMap winStart winEnd := by simp [hparts]
    exact ⟨p, by simp, le_rfl, (lt_of_mem_parts hp).1⟩

theorem isSome_mapFirst (hnuma : cfg.numa.enableNuma = false) (hmap : MapsTestedPages cfg)
    (winStart winEnd m : ℕ) :
    (mapFirst cfg.flags (setupVmMap cfg.numa cfg.limits cfg.pmMap winStart winEnd) m).isSome := by
  rw [mapFirst]
  split
  · rfl
  · next h => exact hmap _ m (exists_pmBaseAddr hnuma h).1.1

section

variable (hnuma : cfg.numa.enableNuma = false) (hpm : SortedPmMap cfg.pmMap)

include hnuma hpm

/-- In each window the entries cover the parts to test. -/
theorem VisitsWindow.pageSets {k : ℕ} {v : Visit} (hv : VisitsWindow cfg k v) :
    v.vm.pageSets v.mappedWindow =
      (parts cfg.limits cfg.pmMap v.winStart v.winEnd).map fun p => Set.Ico p.1 p.2 := by
  obtain ⟨m, hm⟩ := hv.mapped
  rw [hv.winStart, hv.winEnd, hv.vm]
  rw [hv.vm, mapFirst] at hm
  split at hm
  · -- no page to test: there is no part
    next h0 =>
    rw [numMappedPages_nonNuma hnuma hpm] at h0
    have hparts : parts cfg.limits cfg.pmMap (winBound k) (winBound (k + 1)) = [] := by
      by_contra hne
      obtain ⟨p, hp⟩ := List.exists_mem_of_ne_nil _ hne
      have hpage : p.1 ∈ pagesToTest cfg.limits cfg.pmMap (winBound k) (winBound (k + 1)) :=
        mem_pagesToTest_iff.mpr ⟨p, hp, le_rfl, (lt_of_mem_parts hp).1⟩
      have hfin : (pagesToTest cfg.limits cfg.pmMap (winBound k) (winBound (k + 1))).Finite :=
        (Set.finite_Ico (winBound k) (winBound (k + 1))).subset fun x hx => ⟨hx.2.1, hx.2.2⟩
      rw [Set.ncard_eq_zero hfin] at h0
      rw [h0] at hpage
      exact hpage
    rw [setupVmMap_nonNuma hnuma, hparts]
    rfl
  · next h0 =>
    have hpage := exists_pmBaseAddr hnuma h0
    exact pageSets_nonNuma hnuma hpm (isMapped_of_mapWindow hpage.2.1 hpage.2.2 hm)

theorem VisitsWindow.union_pageSets {k : ℕ} {v : Visit} (hv : VisitsWindow cfg k v) :
    union (v.vm.pageSets v.mappedWindow) =
      pagesToTest cfg.limits cfg.pmMap v.winStart v.winEnd := by
  rw [hv.pageSets hnuma hpm, union_parts]

theorem VisitsWindow.numMappedPages {k : ℕ} {v : Visit} (hv : VisitsWindow cfg k v) :
    v.vm.numMappedPages = (union (v.vm.pageSets v.mappedWindow)).ncard := by
  rw [hv.union_pageSets hnuma hpm, hv.vm, hv.winStart, hv.winEnd,
    numMappedPages_nonNuma hnuma hpm]

end

theorem mem_union_pageSets {v : Visit} {page : ℕ} :
    page ∈ union (v.vm.pageSets v.mappedWindow) ↔
      ∃ seg ∈ v.vm.vmMap, seg.Covers v.mappedWindow page := by
  simp [VmMapState.pageSets]

/-- The last end bounds the pages of a sorted map. -/
theorem SortedPmMap.le_lastEnd (hpm : SortedPmMap cfg.pmMap) {seg : PmSegment}
    (hseg : seg ∈ cfg.pmMap) : seg.stop.toNat ≤ cfg.lastEnd := by
  rw [WindowConfig.lastEnd]
  rcases List.eq_nil_or_concat cfg.pmMap with h | ⟨init, last, h⟩
  · rw [h] at hseg
    simp at hseg
  · rw [List.concat_eq_append] at h
    have hord := hpm.ordered last (by rw [h]; simp)
    have hpw := hpm.pairwise
    rw [h] at hseg hpw ⊢
    rw [List.getLast?_concat, Option.map_some, Option.getD_some]
    rcases List.mem_append.mp hseg with hseg | hseg
    · exact ((List.pairwise_append.mp hpw).2.2 seg hseg last (by simp)).trans hord
    · rw [List.mem_singleton.mp hseg]

/-- **Consecutive windows test their pages once.** -/
theorem testsOnce_of_ranges (hnuma : cfg.numa.enableNuma = false) (hpm : SortedPmMap cfg.pmMap)
    {k n : ℕ} {visits : List Visit} (hlast : cfg.lastEnd ≤ winBound (k + n + 1))
    (hranges : visits.map Visit.range =
      (List.range' k (n + 1)).map fun j => (winBound j, winBound (j + 1)))
    (hvisits : ∀ v ∈ visits, ∃ j, VisitsWindow cfg j v) :
    TestsOnce {page | page ∈ testedPages cfg.limits cfg.pmMap ∧ winBound k ≤ page} visits := by
  have hcover : union (visits.map fun v => union (v.vm.pageSets v.mappedWindow)) =
      {page | page ∈ testedPages cfg.limits cfg.pmMap ∧ winBound k ≤ page} := by
    ext page
    constructor
    · rintro ⟨_, hs, hpage⟩
      obtain ⟨v, hv, rfl⟩ := List.mem_map.mp hs
      obtain ⟨j, hj⟩ := hvisits v hv
      rw [hj.union_pageSets hnuma hpm] at hpage
      have hmem : v.range ∈ visits.map Visit.range := List.mem_map_of_mem hv
      rw [hranges] at hmem
      obtain ⟨i, hi, hrange⟩ := List.mem_map.mp hmem
      have hstart : winBound i = v.winStart := congrArg Prod.fst hrange
      have hki : winBound k ≤ winBound i := winBound_mono (List.mem_range'_1.mp hi).1
      exact ⟨hpage.1, by have := hpage.2.1; omega⟩
    · rintro ⟨hpage, hk⟩
      obtain ⟨j, hj1, hj2⟩ := exists_winBound page
      obtain ⟨seg, hseg, hc⟩ := hpage.1
      have hle := hpm.le_lastEnd hseg
      have hjk : k ≤ j := by
        by_contra hlt
        have : winBound (j + 1) ≤ winBound k := winBound_mono (by omega)
        omega
      have hjn : j < k + (n + 1) := by
        by_contra hge
        have : winBound (k + n + 1) ≤ winBound j := winBound_mono (by omega)
        have := hc.2
        omega
      have hmem : (winBound j, winBound (j + 1)) ∈ visits.map Visit.range := by
        rw [hranges]
        exact List.mem_map.mpr ⟨j, List.mem_range'_1.mpr ⟨hjk, hjn⟩, rfl⟩
      obtain ⟨v, hv, hrange⟩ := List.mem_map.mp hmem
      obtain ⟨i, hi⟩ := hvisits v hv
      refine ⟨_, List.mem_map.mpr ⟨v, hv, rfl⟩, ?_⟩
      rw [hi.union_pageSets hnuma hpm]
      have h1 : v.winStart = winBound j := congrArg Prod.fst hrange
      have h2 : v.winEnd = winBound (j + 1) := congrArg Prod.snd hrange
      exact ⟨hpage, by rw [h1]; exact hj1, by rw [h2]; exact hj2⟩
  have hapart : visits.Pairwise fun v w => v.winEnd ≤ w.winStart := by
    have hpw : (visits.map Visit.range).Pairwise fun a b => a.2 ≤ b.1 := by
      rw [hranges, List.pairwise_map]
      exact (List.pairwise_lt_range' (s := k) (n := n + 1)).imp fun hij => winBound_mono hij
    exact List.pairwise_map.mp hpw
  have hdisjoint : ∀ v ∈ visits, ∀ w ∈ visits, v.winEnd ≤ w.winStart →
      Disjoint (union (v.vm.pageSets v.mappedWindow)) (union (w.vm.pageSets w.mappedWindow)) := by
    intro v hv w hw hle
    obtain ⟨i, hi⟩ := hvisits v hv
    obtain ⟨j, hj⟩ := hvisits w hw
    rw [hi.union_pageSets hnuma hpm, hj.union_pageSets hnuma hpm, Set.disjoint_left]
    intro x hx hx'
    have h1 := hx.2.2
    have h2 := hx'.2.1
    omega
  have hapart' := List.Pairwise.and_mem.mp hapart
  refine ⟨fun v hv => ?_, fun page => ?_, ?_, fun v hv => ?_, ?_⟩
  · obtain ⟨j, hj⟩ := hvisits v hv
    rw [hj.winStart, hj.winEnd]
    exact isWindow_winBound j
  · rw [← hcover, mem_union]
    simp only [List.mem_map, exists_exists_and_eq_and, mem_union_pageSets]
  · refine List.pairwise_flatMap.mpr ⟨fun v hv => ?_, hapart'.imp ?_⟩
    · obtain ⟨j, hj⟩ := hvisits v hv
      rw [hj.pageSets hnuma hpm]
      exact pairwise_disjoint_parts hpm
    · rintro v w ⟨hv, hw, hle⟩ s hs t ht
      refine Set.disjoint_left.mpr fun x hx hx' => ?_
      exact Set.disjoint_left.mp (hdisjoint v hv w hw hle) ⟨s, hs, hx⟩ ⟨t, ht, hx'⟩
  · obtain ⟨j, hj⟩ := hvisits v hv
    rw [hj.numMappedPages hnuma hpm]
    congr 1
    ext page
    exact mem_union_pageSets
  · rw [← hcover, ncard_union, List.map_map]
    · refine congrArg List.sum (List.map_congr_left fun v hv => ?_)
      obtain ⟨j, hj⟩ := hvisits v hv
      exact hj.numMappedPages hnuma hpm
    · rw [List.pairwise_map]
      exact hapart'.imp fun {v w} h => hdisjoint v h.1 w h.2.1 h.2.2
    · intro s hs
      obtain ⟨v, hv, rfl⟩ := List.mem_map.mp hs
      obtain ⟨j, hj⟩ := hvisits v hv
      rw [hj.union_pageSets hnuma hpm]
      exact (Set.finite_Ico v.winStart v.winEnd).subset fun x hx => ⟨hx.2.1, hx.2.2⟩

end

/-! ### The number of pages to test -/

theorem updateNumPagesToTest_eq {limits : PageLimits} {pmMap : List PmSegment}
    (hlim : limits.lower < limits.upper) :
    updateNumPagesToTest limits pmMap = (pmMap.map fun seg =>
      min seg.stop.toNat limits.upper - max seg.start.toNat limits.lower).sum := by
  rw [updateNumPagesToTest]
  suffices h : ∀ n, pmMap.foldl _ n = n + (pmMap.map fun seg =>
      min seg.stop.toNat limits.upper - max seg.start.toNat limits.lower).sum by
    simpa using h 0
  induction pmMap with
  | nil => simp
  | cons seg pmMap ih =>
    intro n
    rw [List.foldl_cons, ih, List.map_cons, List.sum_cons, ← Nat.add_assoc]
    congr 1
    split_ifs <;> omega

/-- `update_num_pages_to_test` counts the pages inside the limits. -/
theorem updateNumPagesToTest_eq_ncard {limits : PageLimits} {pmMap : List PmSegment}
    (hpm : SortedPmMap pmMap) (hlim : limits.lower < limits.upper) :
    updateNumPagesToTest limits pmMap = (testedPages limits pmMap).ncard := by
  have hall : testedPages limits pmMap = pagesToTest limits pmMap 0 (2 ^ 52) := by
    ext page
    refine ⟨fun h => ⟨h, Nat.zero_le _, ?_⟩, fun h => h.1⟩
    obtain ⟨seg, hseg, hc⟩ := h.1
    exact hc.2.trans (hpm.bound seg hseg)
  have hnuma : (⟨false, []⟩ : NumaConfig).enableNuma = false := rfl
  rw [hall, ← numMappedPages_nonNuma hnuma hpm, setupVmMap_nonNuma hnuma,
    updateNumPagesToTest_eq hlim]
  dsimp only
  rw [parts]
  -- a segment outside the limits has no part, and counts for nothing
  have hbound := hpm.bound
  clear hall hpm
  induction pmMap with
  | nil => rfl
  | cons seg pmMap ih =>
    have hseg := hbound seg (by simp)
    rw [List.map_cons, List.sum_cons, ih fun s hs => hbound s (by simp [hs]),
      List.filterMap_cons]
    cases hclip : clip (max 0 limits.lower) (min (2 ^ 52) limits.upper) seg with
    | none =>
      have hzero : min seg.stop.toNat limits.upper - max seg.start.toNat limits.lower = 0 := by
        rw [clip] at hclip
        split at hclip
        · simp at hclip
        · omega
      rw [hzero, Nat.zero_add]
    | some p =>
      have := clip_eq_some_iff.mp hclip
      rw [List.map_cons, List.sum_cons]
      congr 1
      omega

/-! ### The runs of the loop -/

/-- **Window coverage.** On a sorted tested-page map, without NUMA and with every page mappable,
the loop over the windows ends, and the windows it has set up test each page inside the limits
exactly once; a multi-stage test leaves out the pages below 4MB. Each window counts its pages, and
for a single-stage test the counts add up to the number of pages to test.

Wherever the program is loaded at the start, the loop moves it out of the way of the window it is
about to test; `run_at` is then a jump back into the loop, and its fuel counts these moves too. A
multi-stage test runs through all windows at each stage and so skips the first one, in which a
relocation could disrupt it. -/
theorem testAllWindows_testsOnce {cfg : WindowConfig} (hpm : SortedPmMap cfg.pmMap)
    (hlim : cfg.limits.lower < cfg.limits.upper) (hnuma : cfg.numa.enableNuma = false)
    (hmap : MapsTestedPages cfg) (loadAddr : LoadAddr) (mappedWindow : ℕ) :
    (∃ fuel, (testAllWindows cfg fuel (.init loadAddr mappedWindow)).isSome) ∧
    ∀ fuel visits, testAllWindows cfg fuel (.init loadAddr mappedWindow) = some visits →
      (cfg.stages ≤ 1 → TestsOnce (testedPages cfg.limits cfg.pmMap) visits ∧
        (visits.map fun v => v.vm.numMappedPages).sum =
          updateNumPagesToTest cfg.limits cfg.pmMap) ∧
      (cfg.stages > 1 → TestsOnce {page | page ∈ testedPages cfg.limits cfg.pmMap ∧
        lowLoadLimit >>> pageShift ≤ page} visits) := by
  have hinit : AtWindow cfg (skipWindow cfg 0) _ := atWindow_init loadAddr mappedWindow
  refine ⟨exists_testAllWindows (n := cfg.lastEnd) hinit ?_, fun fuel visits h => ?_⟩
  · exact (le_winBound _).trans (winBound_mono (by omega))
  obtain ⟨n, hlast, hranges, hvisits⟩ :=
    testAllWindows_spec (fun k m => isSome_mapFirst hnuma hmap _ _ m) hinit h
  have honce := testsOnce_of_ranges hnuma hpm hlast hranges hvisits
  refine ⟨fun hstages => ?_, fun hstages => ?_⟩
  · -- if window 0 is left out, the limits leave out its pages
    have hpages : {page | page ∈ testedPages cfg.limits cfg.pmMap ∧
        winBound (skipWindow cfg 0) ≤ page} = testedPages cfg.limits cfg.pmMap := by
      ext page
      refine ⟨fun hp => hp.1, fun hp => ⟨hp, ?_⟩⟩
      have hlower := hp.2.1
      have hskip : skipWindow cfg 0 = if cfg.limits.lower ≥ lowLoadLimit then 1 else 0 := by
        simp [skipWindow, Nat.not_lt.mpr hstages]
      rw [hskip]
      split
      · next hge =>
        have h1 : winBound 1 = 1024 := rfl
        simp only [lowLoadLimit] at hge
        omega
      · exact Nat.zero_le _
    rw [hpages] at honce
    exact ⟨honce, honce.total.trans (updateNumPagesToTest_eq_ncard hpm hlim).symm⟩
  · have hskip : skipWindow cfg 0 = 1 := by simp [skipWindow, hstages]
    rw [hskip] at honce
    exact honce

/-- A machine with three gigabytes of memory, tested whole by a single-stage test. -/
def threeGbConfig : WindowConfig where
  flags := ⟨true, true⟩
  numa := ⟨false, []⟩
  limits := ⟨0, 0xc0000⟩
  pmMap := [⟨0#64, 0x9f#64⟩, ⟨0x100#64, 0xc0000#64⟩]
  stages := 1
  beforePmMap := 0

/-- The theorem at that machine. -/
theorem testAllWindows_testsOnce_threeGb :
    (∃ fuel, (testAllWindows threeGbConfig fuel (.init .high 2)).isSome) ∧
    ∀ fuel visits, testAllWindows threeGbConfig fuel (.init .high 2) = some visits →
      TestsOnce (testedPages threeGbConfig.limits threeGbConfig.pmMap) visits := by
  have hmap : MapsTestedPages threeGbConfig := by
    intro page mappedWindow _
    simp only [mapWindow, threeGbConfig]
    split <;> rfl
  have hpm : SortedPmMap threeGbConfig.pmMap := ⟨by decide, by decide, by decide⟩
  have h := testAllWindows_testsOnce hpm (by decide) rfl hmap .high 2
  exact ⟨h.1, fun fuel visits hrun => ((h.2 fuel visits hrun).1 (by decide)).1⟩

end Memtest
