import Memtest.Windows.View

/-!
# The first word of window 0 (`run_test` in `tests/tests.c`)

In window 0 `run_test` moves the start of the first entry of `vm_map` to the first word inside the
limits, or to `0x500` if that is further up. It goes by the lower limit alone. This is the start of
the entry if the page of the limit belongs to the tested-page map; if it does not, the entry then
begins with memory that is none of it.

In an AArch64 build the start is only moved up, so nothing here is about that.
-/

namespace Memtest

/-- `first_word`. -/
def firstWord (limits : PageLimits) : ℕ :=
  let firstWord := firstWordMapping limits.lower
  -- for `USB_WORKAROUND`
  if firstWord < 0x500 then 0x500 else firstWord

/-- `vm_map` as the tests see it, when the master has been through the beginning of `run_test`. -/
def moveFirstWord (windowNum : ℕ) (limits : PageLimits) (vmMap : List VmSegment) :
    List VmSegment :=
  if windowNum = 0 then vmMap.modifyHead fun seg => { seg with start := firstWord limits }
  else vmMap

/-- The last word of an entry. `setup_vm_map` is modelled for a 64-bit build; in a 32-bit build the
last word of a page lies four bytes further up. -/
def VmSegment.lastWord (arch : Arch) (seg : VmSegment) : ℕ :=
  seg.stop + (testwordBytes - arch.wordBytes)

theorem lastWord_vmSegment (arch : Arch) (idx lo hi : ℕ) :
    (vmSegment idx lo hi).lastWord arch = lastWordMapping (prevPage hi) arch.wordBytes := by
  have hle : arch.wordBytes ≤ testwordBytes := by cases arch <;> decide
  have hpage : testwordBytes ≤ pageSize := by decide
  rw [VmSegment.lastWord, vmSegment, lastWordMapping, lastWordMapping]
  dsimp only
  omega

/-- An address is the one of a word of an entry. -/
structure VmSegment.IsWord (arch : Arch) (seg : VmSegment) (addr : ℕ) : Prop where
  dvd : arch.wordBytes ∣ addr
  start_le : seg.start ≤ addr
  le_lastWord : addr ≤ seg.lastWord arch

/-- The map that `setup_vm_map` makes for window `k`. -/
def windowVm (numa : NumaConfig) (limits : PageLimits) (pmMap : List PmSegment) (k : ℕ) :
    VmMapState :=
  setupVmMap numa limits pmMap (winBound k) (winBound (k + 1))

/-- `vm_map` as a test of a build finds it in window `k`. -/
def testsVmMap (arch : Arch) (numa : NumaConfig) (limits : PageLimits) (pmMap : List PmSegment)
    (k : ℕ) : List VmSegment :=
  (moveFirstWord k limits (windowVm numa limits pmMap k).vmMap).map fun seg =>
    { seg with stop := seg.lastWord arch }

/-- The pages to test in window `k`. -/
def windowPages (limits : PageLimits) (pmMap : List PmSegment) (k : ℕ) : Set ℕ :=
  pagesToTest limits pmMap (winBound k) (winBound (k + 1))

/-- The tests in window `k` see words of pages to test only, and without NUMA all of those from
`0x500` on; and the start of the first entry is not moved out of it. A word is one the loops of
the tests come to, an aligned address from the start of an entry to its last word. -/
structure OnlySelected (arch : Arch) (numa : NumaConfig) (limits : PageLimits)
    (pmMap : List PmSegment) (k mappedWindow : ℕ) : Prop where
  selected : ∀ seg ∈ moveFirstWord k limits (windowVm numa limits pmMap k).vmMap, ∀ addr,
    seg.IsWord arch addr → pageOf mappedWindow addr ∈ windowPages limits pmMap k
  complete : numa.enableNuma = false → ∀ page ∈ windowPages limits pmMap k, ∀ offset < pageSize,
    arch.wordBytes ∣ offset → 0x500 ≤ firstWordMapping page + offset →
    ∃ seg ∈ moveFirstWord k limits (windowVm numa limits pmMap k).vmMap,
      seg.IsWord arch (firstWordMapping page + offset)
  inside : ∀ seg, (windowVm numa limits pmMap k).vmMap.head? = some seg → ∀ seg',
    (moveFirstWord k limits (windowVm numa limits pmMap k).vmMap).head? = some seg' →
    seg'.start ≠ seg.start → seg.start ≤ seg'.start ∧ seg'.start ≤ seg.lastWord arch

/-- A piece that lies in one page leaves an entry without words, unless the page is page 0 or the
first one of a gigabyte above the third. The end of such an entry is the last word of the page in
front, which these two pages do not have next to them. -/
def SplitPoint.Harmless (ranges : List MemoryAffinity) (pt : SplitPoint) : Prop :=
  ∀ n, pt.piece ranges = some n → pt.start / pageSize = n.newEnd / pageSize →
    EmptyHarmless (pt.start / pageSize)

/-- A piece that leaves an entry with words leaves one for the whole window. That does no harm
where the whole window is to be tested anyway, other than in window 0. -/
def SplitPoint.StaysSelected (ranges : List MemoryAffinity) (limits : PageLimits)
    (pmMap : List PmSegment) (k : ℕ) (pt : SplitPoint) : Prop :=
  pt.Harmless ranges ∨
    (k ≠ 0 ∧ ∀ page, winBound k ≤ page → page < winBound (k + 1) → page ∈ testedPages limits pmMap)

/-- Page numbers of addresses. -/
def PagesBelow52 (pmMap : List PmSegment) : Prop := ∀ seg ∈ pmMap, seg.stop.toNat < 2 ^ 52

section

variable {numa : NumaConfig} {limits : PageLimits} {pmMap : List PmSegment}
  {winStart winEnd k mappedWindow : ℕ} {arch : Arch}

/-! ### The entries and their parts -/

theorem PagesBelow52.part (h : PagesBelow52 pmMap) {part : ℕ × ℕ}
    (hp : part ∈ parts limits pmMap winStart winEnd) : part.2 < 2 ^ 52 := by
  obtain ⟨seg, hseg, hclip⟩ := List.mem_filterMap.mp hp
  have := clip_eq_some_iff.mp hclip
  have := h seg hseg
  omega

/-- A window can be mapped. -/
theorem exists_isMapped_winBound (k : ℕ) : ∃ m, IsMapped (winBound k) (winBound (k + 1)) m := by
  match k with
  | 0 => exact ⟨0, .inl (by decide)⟩
  | 1 => exact ⟨0, .inl (by decide)⟩
  | 2 => exact ⟨0, .inl (by decide)⟩
  | k + 3 => exact ⟨k + 2, .inr ⟨by omega, rfl, rfl⟩⟩

theorem valid_splitPoints {ranges : List MemoryAffinity} {ps : List (ℕ × ℕ)} {room : ℕ}
    {pts : List SplitPoint}
    (h : ∀ pt ∈ pts, pt.Valid winStart winEnd mappedWindow ∧ pt.part ∈ ps) :
    ∀ pt ∈ splitPoints ranges room pts,
      pt.Valid winStart winEnd mappedWindow ∧ pt.part ∈ ps := by
  induction room generalizing pts with
  | zero => exact fun pt hpt => absurd hpt List.not_mem_nil
  | succ room ih =>
    obtain _ | ⟨cur, pts⟩ := pts
    · exact fun pt hpt => absurd hpt List.not_mem_nil
    intro pt hpt
    rw [splitPoints] at hpt
    obtain rfl | hmem := List.mem_cons.mp hpt
    · exact h pt List.mem_cons_self
    refine ih (fun q hq => ?_) pt hmem
    obtain hq | hq := List.mem_append.mp hq
    · obtain ⟨hv, hpart⟩ := h cur List.mem_cons_self
      obtain ⟨hq, heq, -⟩ := hv.next_some (Option.mem_toList.mp hq)
      exact ⟨hq, heq ▸ hpart⟩
    · exact h q (List.mem_cons_of_mem _ hq)

/-- A split point of a window lies in one of its parts. -/
theorem valid_of_mem_splitPointsOf {ranges : List MemoryAffinity} (hpages : PagesBelow52 pmMap)
    (hmapped : IsMapped winStart winEnd mappedWindow) {pt : SplitPoint}
    (hpt : pt ∈ splitPointsOf ranges limits pmMap winStart winEnd) :
    pt.Valid winStart winEnd mappedWindow ∧ pt.part ∈ parts limits pmMap winStart winEnd := by
  refine valid_splitPoints (fun q hq => ?_) pt hpt
  obtain ⟨p, hp, rfl⟩ := List.mem_map.mp hq
  have h1 := lt_of_mem_parts hp
  have h2 := hpages.part hp
  have hstart : (SplitPoint.first p).start = p.1 * 4096 := SplitPoint.pageAddr_eq (by omega)
  refine ⟨⟨hmapped, h1.2.1, h1.2.2.1, h2, hstart.ge, ?_⟩, hp⟩
  rw [hstart]
  exact Nat.mul_lt_mul_of_pos_right h1.1 (by decide)

/-- The entry of a piece. -/
theorem SplitPoint.Valid.entry_eq {ranges : List MemoryAffinity} {pt : SplitPoint} {n : Narrowed}
    (hv : pt.Valid winStart winEnd mappedWindow) (h : pt.piece ranges = some n) :
    pt.entry ranges = vmSegment n.proximityDomainIdx (pt.start / 4096) (n.newEnd / 4096) := by
  simp only [SplitPoint.entry, h, (hv.piece_spec h).1, Nat.shiftRight_eq_div_pow]
  rfl

/-- An entry is made for pages of a part, or for a piece that lies in one of its pages. -/
theorem exists_part_of_mem_vmMap (hpages : PagesBelow52 pmMap) {seg : VmSegment}
    (hseg : seg ∈ (windowVm numa limits pmMap k).vmMap) :
    ∃ idx lo hi, seg = vmSegment idx lo hi ∧ lo ≤ hi ∧
      (∃ part ∈ parts limits pmMap (winBound k) (winBound (k + 1)),
        part.1 ≤ lo ∧ lo < part.2 ∧ hi ≤ part.2) ∧
      (lo = hi → numa.enableNuma = true ∧
        ∃ pt ∈ splitPointsOf numa.memoryAffinityRanges limits pmMap (winBound k)
          (winBound (k + 1)), ∃ n, pt.piece numa.memoryAffinityRanges = some n ∧
            pt.start / pageSize = lo ∧ n.newEnd / pageSize = lo) := by
  rw [windowVm] at hseg
  cases hnuma : numa.enableNuma with
  | false =>
    rw [setupVmMap_nonNuma hnuma] at hseg
    obtain ⟨p, hp, rfl⟩ := List.mem_map.mp hseg
    have hlt := lt_of_mem_parts hp
    exact ⟨0, p.1, p.2, rfl, hlt.1.le, ⟨p, hp, le_rfl, hlt.1, le_rfl⟩,
      fun heq => absurd heq hlt.1.ne⟩
  | true =>
    obtain ⟨m, hmapped⟩ := exists_isMapped_winBound k
    have hvm := setupVmMap_numa hnuma limits pmMap (winBound k) (winBound (k + 1))
    dsimp only at hvm
    rw [hvm] at hseg
    obtain ⟨pt, hpt, rfl⟩ := List.mem_map.mp hseg
    obtain ⟨hv, hpart⟩ := valid_of_mem_splitPointsOf hpages hmapped hpt
    have hle := hv.le_start
    have hlt := hv.start_lt
    cases hpiece : pt.piece numa.memoryAffinityRanges with
    | none =>
      refine ⟨0, pt.part.1, pt.part.2, ?_, by omega, ⟨pt.part, hpart, le_rfl, by omega, le_rfl⟩,
        fun heq => absurd heq (by omega)⟩
      rw [SplitPoint.entry, hpiece]
    | some n =>
      obtain ⟨-, hstart, hend⟩ := hv.piece_spec hpiece
      refine ⟨_, _, _, hv.entry_eq hpiece, by omega,
        ⟨pt.part, hpart, by omega, by omega, by omega⟩, fun heq => ⟨rfl, pt, hpt, n, hpiece, ?_⟩⟩
      rw [pageSize_eq]
      exact ⟨rfl, heq.symm⟩

/-- The first entry starts where the first part starts. -/
theorem head_vmMap (hpages : PagesBelow52 pmMap) {part : ℕ × ℕ}
    (hpart : (parts limits pmMap (winBound k) (winBound (k + 1))).head? = some part) :
    ∃ seg, (windowVm numa limits pmMap k).vmMap.head? = some seg ∧
      seg.start = firstWordMapping part.1 := by
  obtain ⟨rest, hparts⟩ := List.head?_eq_some_iff.mp hpart
  have hmem : part ∈ parts limits pmMap (winBound k) (winBound (k + 1)) := by
    rw [hparts]
    exact List.mem_cons_self
  rw [windowVm]
  cases hnuma : numa.enableNuma with
  | false =>
    rw [setupVmMap_nonNuma hnuma, hparts]
    exact ⟨_, rfl, rfl⟩
  | true =>
    obtain ⟨m, hmapped⟩ := exists_isMapped_winBound k
    have hvm := setupVmMap_numa hnuma limits pmMap (winBound k) (winBound (k + 1))
    dsimp only at hvm
    have hpoints : splitPointsOf numa.memoryAffinityRanges limits pmMap (winBound k)
        (winBound (k + 1)) = SplitPoint.first part :: splitPoints numa.memoryAffinityRanges 127
          (((SplitPoint.first part).next numa.memoryAffinityRanges).toList ++
            rest.map SplitPoint.first) := by
      rw [splitPointsOf, hparts]
      rfl
    rw [hvm, hpoints]
    refine ⟨_, rfl, ?_⟩
    have hv := (valid_of_mem_splitPointsOf hpages hmapped (hpoints ▸ List.mem_cons_self)).1
    have hstart : (SplitPoint.first part).start = part.1 * 4096 := SplitPoint.pageAddr_eq (by
      have := lt_of_mem_parts hmem
      have := hpages.part hmem
      omega)
    cases hpiece : (SplitPoint.first part).piece numa.memoryAffinityRanges with
    | none =>
      rw [SplitPoint.entry, hpiece]
      rfl
    | some n =>
      rw [hv.entry_eq hpiece, hstart, Nat.mul_div_cancel _ (by decide)]
      rfl

theorem exists_part_of_head {seg : VmSegment}
    (hpages : PagesBelow52 pmMap) (hseg : (windowVm numa limits pmMap k).vmMap.head? = some seg) :
    ∃ part, (parts limits pmMap (winBound k) (winBound (k + 1))).head? = some part ∧
      seg.start = firstWordMapping part.1 := by
  obtain ⟨-, -, -, -, -, ⟨part, hpart, -⟩, -⟩ :=
    exists_part_of_mem_vmMap hpages (List.mem_of_mem_head? hseg)
  obtain ⟨first, rest, hparts⟩ := List.exists_cons_of_ne_nil (List.ne_nil_of_mem hpart)
  have hhead : (parts limits pmMap (winBound k) (winBound (k + 1))).head? = some first := by
    rw [hparts, List.head?_cons]
  obtain ⟨seg', hseg', hstart⟩ := head_vmMap hpages hhead
  obtain rfl := Option.some.inj (hseg.symm.trans hseg')
  exact ⟨first, hhead, hstart⟩

/-- Once the master has come to a test, the window is mapped. -/
theorem isMapped_of_mapFirst (hpages : PagesBelow52 pmMap) {flags : CpuFlags} {before : ℕ}
    (hrun : (windowVm numa limits pmMap k).numMappedPages ≠ 0)
    (hmap : mapFirst flags (windowVm numa limits pmMap k) before = some mappedWindow) :
    IsMapped (winBound k) (winBound (k + 1)) mappedWindow := by
  rw [mapFirst, if_neg hrun] at hmap
  obtain ⟨seg, rest, hvm⟩ := List.exists_cons_of_ne_nil (vmMap_ne_nil hrun)
  have hseg : seg ∈ (windowVm numa limits pmMap k).vmMap := by
    rw [windowVm, hvm]
    exact List.mem_cons_self
  obtain ⟨idx, lo, hi, rfl, -, ⟨part, hpart, hlo, hlt, -⟩, -⟩ :=
    exists_part_of_mem_vmMap hpages hseg
  have hwin := lt_of_mem_parts hpart
  rw [windowVm, hvm] at hmap
  exact isMapped_of_mapWindow (show winBound k ≤ lo by omega)
    (show lo < winBound (k + 1) by omega) hmap

/-! ### Words and pages -/

theorem exists_firstWordMapping (page : ℕ) : ∃ q, firstWordMapping page = q * 4096 := by
  obtain h | h := Nat.lt_or_ge page 524288
  · exact ⟨_, firstWordMapping_of_lt h⟩
  · exact ⟨_, firstWordMapping_of_le h⟩

theorem firstWord_lt (arch : Arch) (limits : PageLimits) : firstWord limits < 2 ^ arch.bits := by
  have hlt := firstWordMapping_lt limits.lower
  have hbits : 2 ^ 32 ≤ 2 ^ arch.bits := Nat.pow_le_pow_right (by decide) (by cases arch <;> decide)
  rw [firstWord]
  split <;> omega

/-- Nothing but the start of an entry is moved. -/
theorem exists_mem_of_mem_moveFirstWord {vmMap : List VmSegment} {seg : VmSegment}
    (hseg : seg ∈ moveFirstWord k limits vmMap) :
    ∃ seg' ∈ vmMap, seg.stop = seg'.stop ∧
      (seg.start = seg'.start ∨ seg.start = firstWord limits) := by
  rw [moveFirstWord] at hseg
  split at hseg
  · obtain _ | ⟨head, tail⟩ := vmMap
    · exact absurd hseg List.not_mem_nil
    · obtain rfl | htail := List.mem_cons.mp hseg
      · exact ⟨head, List.mem_cons_self, rfl, .inr rfl⟩
      · exact ⟨seg, List.mem_cons_of_mem _ htail, rfl, .inl rfl⟩
  · exact ⟨seg, hseg, rfl, .inl rfl⟩

/-- In one window the words follow one another like the pages. -/
theorem firstWordMapping_eq_add {lo page : ℕ} (hmapped : IsMapped winStart winEnd mappedWindow)
    (hstart : winStart ≤ lo) (hle : lo ≤ page) (hend : page < winEnd) :
    firstWordMapping page = firstWordMapping lo + (page - lo) * 4096 := by
  obtain hlow | ⟨hm, hs, he⟩ := hmapped
  · rw [firstWordMapping_of_lt (by omega), firstWordMapping_of_lt (by omega)]
    omega
  · rw [firstWordMapping_of_le (by omega), firstWordMapping_of_le (by omega)]
    omega

/-- The page of a word of an entry is one that the entry covers. -/
theorem VmSegment.IsWord.covers {idx lo hi addr : ℕ}
    (h : (vmSegment idx lo hi).IsWord arch addr) :
    (vmSegment idx lo hi).Covers mappedWindow (pageOf mappedWindow addr) := by
  -- the first word and the last one are at the ends of pages
  have hround : ∀ {q r : ℕ}, q * 4096 ≤ addr → addr ≤ r * 4096 + (4096 - arch.wordBytes) →
      q * 4096 ≤ addr / 4096 * 4096 ∧ addr / 4096 * 4096 ≤ r * 4096 + 4088 := by
    intro q r hlo hhi
    have := arch.wordBytes_pos
    omega
  obtain ⟨q, hq⟩ := exists_firstWordMapping lo
  obtain ⟨r, hr⟩ := exists_firstWordMapping (prevPage hi)
  have hstart : (vmSegment idx lo hi).start = q * 4096 := hq
  have hstop : (vmSegment idx lo hi).stop = r * 4096 + 4088 := by
    rw [← hr]
    rfl
  have hlast := h.le_lastWord
  rw [lastWord_vmSegment, lastWordMapping, pageSize_eq, hr] at hlast
  obtain ⟨hlo, hhi⟩ := hround (hstart.symm.le.trans h.start_le) hlast
  refine ⟨addr / 4096 * 4096, hstart.le.trans hlo, hhi.trans hstop.ge, ?_⟩
  rw [pageOf_eq, pageOf_eq, Nat.mul_div_cancel _ (by decide)]

theorem pageOf_firstWordMapping_of_isMapped {page : ℕ}
    (hmapped : IsMapped winStart winEnd mappedWindow) (hlo : winStart ≤ page)
    (hhi : page < winEnd) : pageOf mappedWindow (firstWordMapping page) = page := by
  rw [pageOf_firstWordMapping]
  obtain hlow | ⟨hm, hs, he⟩ := hmapped
  · rw [if_pos (by omega)]
  · rw [if_neg (by omega)]
    omega

theorem wordBytes_dvd_firstWordMapping (arch : Arch) (page : ℕ) :
    arch.wordBytes ∣ firstWordMapping page := by
  obtain ⟨q, hq⟩ := exists_firstWordMapping page
  rw [hq]
  exact (show arch.wordBytes ∣ 4096 by cases arch <;> decide).mul_left q

section

variable {idx lo : ℕ} (hmapped : IsMapped winStart winEnd mappedWindow) (hend : lo < winEnd)
  (hhigh : 524288 < lo)

include hmapped hend hhigh

/-- The words of an entry above the third gigabyte are words of the window. -/
theorem pageOf_mem_window {hi addr : ℕ} (h : (vmSegment idx lo hi).IsWord arch addr) :
    winStart ≤ pageOf mappedWindow addr ∧ pageOf mappedWindow addr < winEnd := by
  have hlo : firstWordMapping lo ≤ addr := h.start_le
  rw [firstWordMapping_of_le hhigh.le] at hlo
  rw [pageOf_eq, if_pos (by omega)]
  obtain hlow | ⟨hm, hs, he⟩ := hmapped <;> omega

/-- The entry of a piece in the first page of a gigabyte has words of every page of the window. -/
theorem isWord_of_mem_window (hdvd : 262144 ∣ lo) (hlt : lo < 2 ^ 52) {page : ℕ}
    (hlo : winStart ≤ page) (hhi : page < winEnd) :
    (vmSegment idx lo lo).IsWord arch (firstWordMapping page) := by
  obtain hlow | ⟨hm, hs, he⟩ := hmapped
  · omega
  refine ⟨wordBytes_dvd_firstWordMapping arch page, ?_, ?_⟩
  · have hfirst : (vmSegment idx lo lo).start = firstWordMapping lo := rfl
    rw [hfirst, firstWordMapping_of_le hhigh.le, firstWordMapping_of_le (by omega)]
    omega
  · have hprev : prevPage lo = lo - 1 := by
      rw [prevPage]
      omega
    rw [lastWord_vmSegment, lastWordMapping, hprev, firstWordMapping_of_le (by omega),
      firstWordMapping_of_le (by omega)]
    omega

end

/-! ### Only selected memory -/

/-- Without a harmful piece, every entry has words of pages to test only. -/
theorem windowPages_of_isWord (hpages : PagesBelow52 pmMap)
    (hmapped : IsMapped (winBound k) (winBound (k + 1)) mappedWindow)
    (hstays : numa.enableNuma = true → ∀ pt ∈ splitPointsOf numa.memoryAffinityRanges limits pmMap
      (winBound k) (winBound (k + 1)), pt.StaysSelected numa.memoryAffinityRanges limits pmMap k)
    {seg : VmSegment} (hseg : seg ∈ (windowVm numa limits pmMap k).vmMap) {addr : ℕ}
    (h : seg.IsWord arch addr) : pageOf mappedWindow addr ∈ windowPages limits pmMap k := by
  obtain ⟨idx, lo, hi, rfl, hle, ⟨part, hpart, hlo, hlt, hhi⟩, hpiece⟩ :=
    exists_part_of_mem_vmMap hpages hseg
  have hwin := lt_of_mem_parts hpart
  have hbound := hpages.part hpart
  have hcovers : (vmSegment idx lo hi).Covers mappedWindow (pageOf mappedWindow addr) := h.covers
  obtain hlt' | rfl := hle.lt_or_eq
  · have hin : InWindow (winBound k) (winBound (k + 1)) mappedWindow lo hi :=
      ⟨hmapped, by omega, hle, by omega, by omega⟩
    obtain ⟨h1, h2⟩ := (hin.covers_iff hlt').mp hcovers
    exact mem_pagesToTest_iff.mpr ⟨part, hpart, by omega, by omega⟩
  · -- a piece in one page
    obtain ⟨hnuma, pt, hpt, n, hn, hstart, hend⟩ := hpiece rfl
    by_cases hempty : SplitPoint.EmptyHarmless lo
    · exact absurd hcovers (not_covers_of_emptyHarmless hempty (by omega))
    obtain hharmless | ⟨hk, hall⟩ := hstays hnuma pt hpt
    · have := hharmless n hn (hstart.trans hend.symm)
      rw [hstart] at this
      exact absurd this hempty
    · have hpos : winBound 1 ≤ winBound k := winBound_mono (by omega)
      have hone : winBound 1 = 1024 := rfl
      rw [SplitPoint.EmptyHarmless, not_and_or, not_not, not_not] at hempty
      obtain ⟨hhigh, -⟩ := hempty.resolve_left (by omega)
      obtain ⟨h1, h2⟩ := pageOf_mem_window hmapped (show lo < winBound (k + 1) by omega) hhigh h
      exact ⟨hall _ h1 h2, h1, h2⟩

/-- If the first entry starts at the lower limit, a word the tests see is a word of an entry. -/
theorem isWord_of_moveFirstWord {vmMap : List VmSegment}
    (hfirst : k = 0 → ∀ seg, vmMap.head? = some seg → seg.start ≤ firstWord limits)
    {seg : VmSegment} (hseg : seg ∈ moveFirstWord k limits vmMap) {addr : ℕ}
    (h : seg.IsWord arch addr) : ∃ seg' ∈ vmMap, seg'.IsWord arch addr := by
  rw [moveFirstWord] at hseg
  split at hseg
  · next hk =>
    obtain _ | ⟨first, rest⟩ := vmMap
    · exact absurd hseg List.not_mem_nil
    obtain rfl | hrest := List.mem_cons.mp hseg
    · exact ⟨first, List.mem_cons_self, h.dvd, (hfirst hk first rfl).trans h.start_le,
        h.le_lastWord⟩
    · exact ⟨seg, List.mem_cons_of_mem _ hrest, h⟩
  · exact ⟨seg, hseg, h⟩

/-- Without NUMA the tests see all words of the pages to test. -/
theorem exists_isWord_moveFirstWord (hpages : PagesBelow52 pmMap)
    (hnuma : numa.enableNuma = false)
    (hmapped : IsMapped (winBound k) (winBound (k + 1)) mappedWindow)
    (hfirst : k = 0 → ∀ part,
      (parts limits pmMap (winBound k) (winBound (k + 1))).head? = some part →
        part.1 = limits.lower)
    {page offset : ℕ} (hpage : page ∈ windowPages limits pmMap k) (hoffset : offset < pageSize)
    (hdvd : arch.wordBytes ∣ offset) (hlow : 0x500 ≤ firstWordMapping page + offset) :
    ∃ seg ∈ moveFirstWord k limits (windowVm numa limits pmMap k).vmMap,
      seg.IsWord arch (firstWordMapping page + offset) := by
  obtain ⟨part, hpart, hlo, hhi⟩ := mem_pagesToTest_iff.mp hpage
  have hwin := lt_of_mem_parts hpart
  -- the words of the part, as they are in its entry
  have hadd := firstWordMapping_eq_add hmapped (show winBound k ≤ part.1 by omega) hlo (by omega)
  have hlast := firstWordMapping_eq_add hmapped (show winBound k ≤ page by omega)
    (show page ≤ part.2 - 1 by omega) (by omega)
  have hword : ∀ start ≤ firstWordMapping page + offset,
      VmSegment.IsWord arch { vmSegment 0 part.1 part.2 with start := start }
        (firstWordMapping page + offset) := by
    intro start hstart
    refine ⟨Nat.dvd_add (wordBytes_dvd_firstWordMapping arch page) hdvd, hstart, ?_⟩
    change _ ≤ (vmSegment 0 part.1 part.2).lastWord arch
    have hprev : prevPage part.2 = part.2 - 1 := by
      have := hpages.part hpart
      rw [prevPage]
      omega
    have hfits : offset + arch.wordBytes ≤ pageSize := by
      have hpage : arch.wordBytes ∣ pageSize := by cases arch <;> decide
      obtain ⟨d, rfl⟩ := hdvd
      obtain ⟨e, he⟩ := hpage
      rw [he] at hoffset ⊢
      have hlt : d + 1 ≤ e := Nat.lt_of_mul_lt_mul_left hoffset
      exact (Nat.mul_succ arch.wordBytes d).ge.trans (Nat.mul_le_mul_left _ hlt)
    rw [lastWord_vmSegment, lastWordMapping, hprev]
    omega
  have hmem : vmSegment 0 part.1 part.2 ∈ (windowVm numa limits pmMap k).vmMap := by
    rw [windowVm, setupVmMap_nonNuma hnuma]
    exact List.mem_map.mpr ⟨part, hpart, rfl⟩
  have hunmoved : (vmSegment 0 part.1 part.2).IsWord arch (firstWordMapping page + offset) :=
    hword _ (by omega)
  rw [moveFirstWord]
  split
  · next hk =>
    -- the first entry may have been moved
    obtain ⟨first, rest, hparts⟩ := List.exists_cons_of_ne_nil (List.ne_nil_of_mem hpart)
    have hlower := hfirst hk first (by rw [hparts, List.head?_cons])
    rw [windowVm, setupVmMap_nonNuma hnuma, hparts]
    rw [hparts] at hpart
    obtain rfl | hrest := List.mem_cons.mp hpart
    · refine ⟨_, List.mem_cons_self, hword _ ?_⟩
      rw [firstWord, ← hlower]
      split <;> omega
    · exact ⟨_, List.mem_cons_of_mem _ (List.mem_map.mpr ⟨part, hrest, rfl⟩), hunmoved⟩
  · exact ⟨_, hmem, hunmoved⟩

/-- The start of the first entry, behind the beginning of `run_test` in window 0. -/
theorem head_moveFirstWord {limits : PageLimits} {vmMap : List VmSegment} {seg : VmSegment}
    (h : vmMap.head? = some seg) :
    (moveFirstWord 0 limits vmMap).head? = some { seg with start := firstWord limits } := by
  obtain ⟨rest, rfl⟩ := List.head?_eq_some_iff.mp h
  rfl

/-- Every entry is still there, if perhaps with another start. -/
theorem exists_moveFirstWord {limits : PageLimits} {vmMap : List VmSegment} {seg : VmSegment}
    (h : seg ∈ vmMap) : ∃ seg' ∈ moveFirstWord 0 limits vmMap,
      seg' = seg ∨ seg' = { seg with start := firstWord limits } := by
  obtain _ | ⟨first, rest⟩ := vmMap
  · exact absurd h List.not_mem_nil
  · obtain rfl | hrest := List.mem_cons.mp h
    · exact ⟨_, List.mem_cons_self, .inr rfl⟩
    · exact ⟨seg, List.mem_cons_of_mem _ hrest, .inl rfl⟩

/-- The entry for no page at all at page 0 has a word of page 1024. -/
theorem isWord_pageZero (arch : Arch) {idx start : ℕ} (hstart : start ≤ 0x400000) :
    VmSegment.IsWord arch { vmSegment idx 0 0 with start := start } 0x400000 := by
  refine ⟨by cases arch <;> decide, hstart, ?_⟩
  change _ ≤ (vmSegment idx 0 0).lastWord arch
  have hprev : prevPage 0 = 18446744073709551615 := by decide
  rw [lastWord_vmSegment, lastWordMapping, hprev, firstWordMapping_of_le (by decide)]
  omega

theorem firstWord_eq {limits : PageLimits} (h : limits.lower < 524288) :
    firstWord limits = max (limits.lower * 4096) 0x500 := by
  rw [firstWord, firstWordMapping_of_lt h]
  split <;> omega

/-! ### What the condition is needed for -/

/-- In window 0 the first entry is not moved out of its segment: it begins at the lower limit. -/
theorem OnlySelected.eq_lower (hpages : PagesBelow52 pmMap)
    (h : OnlySelected arch numa limits pmMap 0 mappedWindow) {part : ℕ × ℕ}
    (hpart : (parts limits pmMap (winBound 0) (winBound (0 + 1))).head? = some part) :
    part.1 = limits.lower := by
  obtain ⟨seg, hseg, hstart⟩ : ∃ seg, (windowVm numa limits pmMap 0).vmMap.head? = some seg ∧
      seg.start = firstWordMapping part.1 := head_vmMap hpages hpart
  have hwin := lt_of_mem_parts (List.mem_of_mem_head? hpart)
  have hone : winBound (0 + 1) = 1024 := rfl
  have hinside := h.inside seg hseg _ (head_moveFirstWord hseg)
  rw [hstart, firstWordMapping_of_lt (by omega), firstWord_eq (by omega)] at hinside
  dsimp only at hinside
  omega

/-- A piece that lies in a single page has an entry for no page at all. -/
theorem mem_vmMap_of_piece (hnuma : numa.enableNuma = true) {pt : SplitPoint} {n : Narrowed}
    (hpt : pt ∈ splitPointsOf numa.memoryAffinityRanges limits pmMap (winBound k)
      (winBound (k + 1)))
    (hv : pt.Valid (winBound k) (winBound (k + 1)) mappedWindow)
    (hn : pt.piece numa.memoryAffinityRanges = some n)
    (hpage : pt.start / 4096 = n.newEnd / 4096) :
    vmSegment n.proximityDomainIdx (pt.start / 4096) (pt.start / 4096) ∈
      (windowVm numa limits pmMap k).vmMap := by
  have hentry := hv.entry_eq hn
  rw [← hpage] at hentry
  have hvm := setupVmMap_numa hnuma limits pmMap (winBound k) (winBound (k + 1))
  dsimp only at hvm
  rw [windowVm, hvm, ← hentry]
  exact List.mem_map_of_mem hpt

/-- In window 0 an entry for no page at all does no harm: the one for page 0 would show the tests a
word of page 1024. -/
theorem OnlySelected.emptyHarmless (h : OnlySelected arch numa limits pmMap 0 mappedWindow)
    {idx lo : ℕ} (hseg : vmSegment idx lo lo ∈ (windowVm numa limits pmMap 0).vmMap)
    (hlo : limits.lower ≤ lo) (hwindow : lo < winBound 1) : SplitPoint.EmptyHarmless lo := by
  have hone : winBound 1 = 1024 := rfl
  have hsucc : winBound (0 + 1) = 1024 := rfl
  by_contra hempty
  obtain rfl : lo = 0 := by
    rw [SplitPoint.EmptyHarmless, not_and_or, not_not, not_not] at hempty
    omega
  have hlower : firstWord limits = 0x500 := by
    rw [firstWord_eq (by omega)]
    omega
  obtain ⟨seg, hseg, hmoved⟩ : ∃ seg ∈ moveFirstWord 0 limits
      (windowVm numa limits pmMap 0).vmMap, _ := exists_moveFirstWord hseg
  have hword : seg.IsWord arch 0x400000 := by
    obtain rfl | rfl := hmoved
    · exact isWord_pageZero arch (Nat.zero_le _)
    · exact isWord_pageZero arch (by rw [hlower]; decide)
  have hmem := (h.selected seg hseg _ hword).2.2
  rw [pageOf_eq, if_neg (by decide)] at hmem
  omega

/-- A piece that does harm does it in a window that is tested as a whole. -/
theorem OnlySelected.staysSelected (hpages : PagesBelow52 pmMap)
    (hmapped : IsMapped (winBound k) (winBound (k + 1)) mappedWindow)
    (h : OnlySelected arch numa limits pmMap k mappedWindow) (hnuma : numa.enableNuma = true)
    {pt : SplitPoint} (hpt : pt ∈ splitPointsOf numa.memoryAffinityRanges limits pmMap (winBound k)
      (winBound (k + 1))) :
    pt.StaysSelected numa.memoryAffinityRanges limits pmMap k := by
  rw [SplitPoint.StaysSelected, or_iff_not_imp_left]
  intro hharmful
  simp only [SplitPoint.Harmless, not_forall] at hharmful
  obtain ⟨n, hn, hpage, hempty⟩ := hharmful
  obtain ⟨hv, hpart⟩ := valid_of_mem_splitPointsOf hpages hmapped hpt
  have hwin := lt_of_mem_parts hpart
  have hbound := hpages.part hpart
  have hle := hv.le_start
  have hlt := hv.start_lt
  rw [pageSize_eq] at hpage hempty
  have hseg := mem_vmMap_of_piece hnuma hpt hv hn hpage
  generalize hlo : pt.start / 4096 = lo at hempty hseg
  have hk : k ≠ 0 := by
    rintro rfl
    have hwindow : lo < winBound 1 := by
      have hsucc : winBound (0 + 1) = winBound 1 := rfl
      omega
    exact hempty (h.emptyHarmless hseg (by omega) hwindow)
  refine ⟨hk, fun page hstart hend => ?_⟩
  have hpos : winBound 1 ≤ winBound k := winBound_mono (by omega)
  have hone : winBound 1 = 1024 := rfl
  rw [SplitPoint.EmptyHarmless, not_and_or, not_not, not_not] at hempty
  obtain ⟨hhigh, hdvd⟩ := hempty.resolve_left (by omega)
  have hword : (vmSegment n.proximityDomainIdx lo lo).IsWord arch (firstWordMapping page) :=
    isWord_of_mem_window hmapped (by omega) hhigh hdvd (by omega) hstart hend
  have hmem := h.selected _ (by rwa [moveFirstWord, if_neg hk]) _ hword
  rw [pageOf_firstWordMapping_of_isMapped hmapped hstart hend] at hmem
  exact hmem.1

/-! ### That the condition is enough -/

/-- If the first part begins at the lower limit, the start of the first entry is only moved up. -/
theorem start_le_firstWord (hpages : PagesBelow52 pmMap)
    (hfirst : ∀ part, (parts limits pmMap (winBound k) (winBound (k + 1))).head? = some part →
      part.1 = limits.lower)
    {seg : VmSegment} (hseg : (windowVm numa limits pmMap k).vmMap.head? = some seg) :
    seg.start ≤ firstWord limits := by
  obtain ⟨part, hpart, hstart⟩ := exists_part_of_head hpages hseg
  rw [hstart, hfirst part hpart, firstWord]
  split <;> omega

/-- In window 0 the start is then only moved from the start of page 0 to `0x500`, which is a word of
the entry. -/
theorem firstWord_le_lastWord (hpages : PagesBelow52 pmMap)
    (hfirst : ∀ part, (parts limits pmMap (winBound k) (winBound (k + 1))).head? = some part →
      part.1 = limits.lower)
    {seg : VmSegment} (hseg : (windowVm numa limits pmMap k).vmMap.head? = some seg)
    (hne : firstWord limits ≠ seg.start) : firstWord limits ≤ seg.lastWord arch := by
  obtain ⟨part, hpart, hstart⟩ := exists_part_of_head hpages hseg
  obtain ⟨idx, lo, hi, rfl, -⟩ := exists_part_of_mem_vmMap hpages (List.mem_of_mem_head? hseg)
  have hmove : firstWord limits = 0x500 := by
    rw [hstart, hfirst part hpart] at hne
    rw [firstWord] at hne ⊢
    split_ifs at hne ⊢ with hlow
    · rfl
    · exact absurd rfl hne
  have hbytes : arch.wordBytes ≤ 8 := by cases arch <;> decide
  rw [lastWord_vmSegment, lastWordMapping, pageSize_eq]
  omega

theorem onlySelected_of_staysSelected (hpages : PagesBelow52 pmMap)
    (hmapped : IsMapped (winBound k) (winBound (k + 1)) mappedWindow)
    (hfirst : k = 0 → ∀ part,
      (parts limits pmMap (winBound k) (winBound (k + 1))).head? = some part →
        part.1 = limits.lower)
    (hstays : numa.enableNuma = true → ∀ pt ∈ splitPointsOf numa.memoryAffinityRanges limits pmMap
      (winBound k) (winBound (k + 1)), pt.StaysSelected numa.memoryAffinityRanges limits pmMap k) :
    OnlySelected arch numa limits pmMap k mappedWindow where
  selected seg hseg addr hword := by
    have hmoved : k = 0 → ∀ seg, (windowVm numa limits pmMap k).vmMap.head? = some seg →
        seg.start ≤ firstWord limits := fun hk _ => start_le_firstWord hpages (hfirst hk)
    obtain ⟨seg', hseg', hword'⟩ := isWord_of_moveFirstWord hmoved hseg hword
    exact windowPages_of_isWord hpages hmapped hstays hseg' hword'
  complete hnuma page hpage offset hoffset hdvd hlow :=
    exists_isWord_moveFirstWord hpages hnuma hmapped hfirst hpage hoffset hdvd hlow
  inside seg hseg seg' hseg' hne := by
    obtain rfl | hk := Nat.eq_zero_or_pos k
    · rw [head_moveFirstWord hseg] at hseg'
      obtain rfl := Option.some.inj hseg'
      exact ⟨start_le_firstWord hpages (hfirst rfl) hseg,
        firstWord_le_lastWord hpages (hfirst rfl) hseg hne⟩
    · rw [moveFirstWord, if_neg hk.ne', hseg] at hseg'
      obtain rfl := Option.some.inj hseg'
      exact absurd rfl hne

/-- **Only selected memory.** The tests see words of pages to test only, just if in window 0 the
first segment with pages to test there has the page of the lower limit; and, with NUMA, if no piece
of a segment lies in a single page that is page 0 or, unless the whole window is tested, the first
one of a gigabyte above the third.

The first part is what the move of the start in `run_test` relies on. The second is about the
entries that `setup_vm_map` makes for a piece within one page: they go from that page to the one in
front of it, which is harmless unless the page in front is seen above. -/
theorem onlySelected_iff (hpages : PagesBelow52 pmMap) {flags : CpuFlags} {before : ℕ}
    (hrun : (windowVm numa limits pmMap k).numMappedPages ≠ 0)
    (hmap : mapFirst flags (windowVm numa limits pmMap k) before = some mappedWindow) :
    OnlySelected arch numa limits pmMap k mappedWindow ↔
      (k = 0 → ∀ part, (parts limits pmMap (winBound k) (winBound (k + 1))).head? = some part →
        part.1 = limits.lower) ∧
      (numa.enableNuma = true →
        ∀ pt ∈ splitPointsOf numa.memoryAffinityRanges limits pmMap (winBound k)
          (winBound (k + 1)), pt.StaysSelected numa.memoryAffinityRanges limits pmMap k) := by
  have hmapped := isMapped_of_mapFirst hpages hrun hmap
  constructor
  · intro h
    refine ⟨?_, fun hnuma pt hpt => h.staysSelected hpages hmapped hnuma hpt⟩
    rintro rfl part hpart
    exact h.eq_lower hpages hpart
  · rintro ⟨hfirst, hstays⟩
    exact onlySelected_of_staysSelected hpages hmapped hfirst hstays

end

/-- A machine with conventional memory and memory from 1MB on. -/
def lowMemory : List PmSegment := [⟨0#64, 0x9f#64⟩, ⟨0x100#64, 0x8000#64⟩]

theorem pagesBelow52_lowMemory : PagesBelow52 lowMemory := by
  rw [PagesBelow52]
  decide

theorem onlySelected_iff_lowMemory :
    (windowVm ⟨false, []⟩ ⟨0x10, 0x8000⟩ lowMemory 0).numMappedPages ≠ 0 ∧
      (OnlySelected .b64 ⟨false, []⟩ ⟨0x10, 0x8000⟩ lowMemory 0 2 ↔
        ((0 = 0 → ∀ part, (parts ⟨0x10, 0x8000⟩ lowMemory (winBound 0) (winBound 1)).head? =
            some part → part.1 = 0x10) ∧
          (false = true → ∀ pt ∈ splitPointsOf [] ⟨0x10, 0x8000⟩ lowMemory (winBound 0)
            (winBound 1), pt.StaysSelected [] ⟨0x10, 0x8000⟩ lowMemory 0))) :=
  ⟨by decide, onlySelected_iff pagesBelow52_lowMemory (by decide)
    (show mapFirst ⟨true, true⟩ (windowVm ⟨false, []⟩ ⟨0x10, 0x8000⟩ lowMemory 0) 2 = some 2 by
      decide)⟩

/-- With the lower limit at 768KB the tests in window 0 start there, and not at 1MB. -/
theorem not_onlySelected_reserved :
    ¬∀ (numa : NumaConfig) (limits : PageLimits) (pmMap : List PmSegment) (flags : CpuFlags)
      (k before mappedWindow : ℕ), limits.lower < limits.upper → PagesBelow52 pmMap →
      (windowVm numa limits pmMap k).numMappedPages ≠ 0 →
      mapFirst flags (windowVm numa limits pmMap k) before = some mappedWindow →
      OnlySelected .b64 numa limits pmMap k mappedWindow := by
  intro h
  have honly := h ⟨false, []⟩ ⟨0xc0, 0x8000⟩ lowMemory ⟨true, true⟩ 0 2 2 (by decide)
    pagesBelow52_lowMemory (by decide) (by decide)
  have hseg : (⟨0x100, 0xc0000, 0x3ffff8, 0⟩ : VmSegment) ∈ moveFirstWord 0 ⟨0xc0, 0x8000⟩
      (windowVm ⟨false, []⟩ ⟨0xc0, 0x8000⟩ lowMemory 0).vmMap := by decide
  obtain ⟨⟨⟨seg, hmem, hlo, hhi⟩, -⟩, -⟩ := honly.selected _ hseg 0xc0000
    ⟨by decide, le_rfl, by decide⟩
  have hpage : pageOf 2 0xc0000 = 0xc0 := by decide
  rw [hpage] at hlo hhi
  have hnone : ∀ seg ∈ lowMemory, ¬(seg.start.toNat ≤ 0xc0 ∧ 0xc0 < seg.stop.toNat) := by decide
  exact hnone seg hmem ⟨hlo, hhi⟩

end Memtest
