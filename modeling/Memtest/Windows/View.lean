import Memtest.Windows.Numa
import Memtest.Windows.Paging
import Memtest.Tests.OwnAddr

/-!
# What a window shows

Every word of an entry of `vm_map` lies where `map_window` maps the window, with NUMA or without:
below two gigabytes, or in the third one. So what is between its virtual and its physical address
is the same for all words of the window, and the first page of the first entry is enough to compute
it.
-/

namespace Memtest

/-- The physical word a virtual word is. -/
def VmemState.physWord (flags : CpuFlags) (s : VmemState) (p : ℕ) : ℕ :=
  s.translate flags (p / 512) * 512 + p % 512

section

variable {numa : NumaConfig} {limits : PageLimits} {pmMap : List PmSegment} {winStart winEnd : ℕ}

/-- An entry is made for pages of the window, or for a fraction of one. -/
def IsEntry (winStart winEnd : ℕ) (seg : VmSegment) : Prop :=
  ∃ idx lo hi, seg = vmSegment idx lo hi ∧ winStart ≤ lo ∧ lo < winEnd ∧ lo ≤ hi ∧ hi ≤ winEnd ∧
    hi < 2 ^ 52

theorem SplitPoint.Valid.isEntry {pt : SplitPoint} {mappedWindow : ℕ}
    (hv : pt.Valid winStart winEnd mappedWindow) (ranges : List MemoryAffinity) :
    IsEntry winStart winEnd (pt.entry ranges) := by
  have h1 := hv.winStart_le
  have h2 := hv.le_winEnd
  have h3 := hv.le_start
  have h4 := hv.start_lt
  cases hpiece : pt.piece ranges with
  | none =>
    refine ⟨0, pt.part.1, pt.part.2, ?_, h1, by omega, by omega, h2, hv.lt⟩
    rw [SplitPoint.entry, hpiece]
  | some n =>
    have hwin := hv.inWindow hpiece
    refine ⟨n.proximityDomainIdx, pt.start / 4096, n.newEnd / 4096, ?_, hwin.winStart_le, by omega,
      hwin.le, hwin.le_winEnd, hwin.lt⟩
    simp only [SplitPoint.entry, hpiece, Nat.shiftRight_eq_div_pow, (hv.piece_spec hpiece).1]
    rfl

theorem isEntry_of_mem_vmMap {mappedWindow : ℕ} (hpm : SortedPmMap pmMap)
    (hmapped : IsMapped winStart winEnd mappedWindow) {seg : VmSegment}
    (hseg : seg ∈ (setupVmMap numa limits pmMap winStart winEnd).vmMap) :
    IsEntry winStart winEnd seg := by
  cases hnuma : numa.enableNuma with
  | false =>
    rw [setupVmMap_nonNuma hnuma] at hseg
    obtain ⟨p, hp, rfl⟩ := List.mem_map.mp hseg
    have h1 := lt_of_mem_parts hp
    have h2 := lt_bound_of_mem_parts hpm hp
    exact ⟨0, p.1, p.2, rfl, by omega, by omega, by omega, by omega, h2⟩
  | true =>
    have hvm := setupVmMap_numa hnuma limits pmMap winStart winEnd
    dsimp only at hvm
    rw [hvm] at hseg
    obtain ⟨pt, hpt, rfl⟩ := List.mem_map.mp hseg
    exact (valid_of_mem_splitPoints (pending_parts hpm hmapped) hpt).isEntry _

/-- With pages to test there is an entry. -/
theorem vmMap_ne_nil (h : (setupVmMap numa limits pmMap winStart winEnd).numMappedPages ≠ 0) :
    (setupVmMap numa limits pmMap winStart winEnd).vmMap ≠ [] := by
  cases hnuma : numa.enableNuma with
  | false =>
    rw [setupVmMap_nonNuma hnuma] at h ⊢
    intro hnil
    rw [List.map_eq_nil_iff.mp hnil] at h
    exact h rfl
  | true =>
    have hvm := setupVmMap_numa hnuma limits pmMap winStart winEnd
    dsimp only at hvm
    rw [hvm] at h ⊢
    intro hnil
    rw [List.map_eq_nil_iff.mp hnil] at h
    exact h rfl

end

/-! ### The words of an entry -/

/-- The words a loop over a whole segment deals with: those of the segment, and in any case the
first one. -/
def VmSegment.HasWord (arch : Arch) (seg : VmSegment) (p : ℕ) : Prop :=
  seg.start / arch.wordBytes ≤ p ∧ (p = seg.start / arch.wordBytes ∨ p ≤ seg.stop / arch.wordBytes)

section

variable {k idx lo hi p : ℕ}

theorem winBound_le_of_le_two (hk : k ≤ 2) : winBound (k + 1) ≤ 524288 :=
  winBound_mono (show k + 1 ≤ 3 by omega)

theorem winBound_of_three_le (hk : 3 ≤ k) :
    winBound k = (k - 1) * 262144 ∧ winBound (k + 1) = k * 262144 := by
  obtain ⟨j, rfl⟩ := Nat.exists_eq_add_of_le' hk
  exact ⟨rfl, rfl⟩

theorem firstWordMapping_lt (page : ℕ) : firstWordMapping page + 4096 ≤ 3221225472 := by
  obtain h | h := Nat.lt_or_ge page 524288
  · rw [firstWordMapping_of_lt h]
    omega
  · rw [firstWordMapping_of_le h]
    omega

/-- The words of an entry lie in the first two gigabytes, or in the third one. -/
theorem hasWord_bounds (hk : 1 ≤ k) {seg : VmSegment}
    (hseg : IsEntry (winBound k) (winBound (k + 1)) seg) (hp : seg.HasWord .b64 p) :
    (k ≤ 2 → p < 268435456) ∧ (3 ≤ k → 268435456 ≤ p ∧ p < 402653184) := by
  obtain ⟨idx, lo, hi, rfl, hlo, hlo', hle, hhi, hbound⟩ := hseg
  have hprev : prevPage hi = hi - 1 := by
    have : 1 ≤ winBound k := hk.trans (le_winBound k)
    rw [prevPage]
    omega
  obtain ⟨h1, h2⟩ : firstWordMapping lo / 8 ≤ p ∧
      (p = firstWordMapping lo / 8 ∨ p ≤ (firstWordMapping (hi - 1) + 4088) / 8) := by
    rw [← hprev]
    exact hp
  constructor
  · intro hk2
    have hwin := winBound_le_of_le_two hk2
    rw [firstWordMapping_of_lt (show lo < 524288 by omega)] at h2
    rw [firstWordMapping_of_lt (show hi - 1 < 524288 by omega)] at h2
    omega
  · intro hk3
    have hwin := (winBound_of_three_le hk3).1
    have hstop := firstWordMapping_lt (hi - 1)
    rw [firstWordMapping_of_le (show 524288 ≤ lo by omega)] at h1 h2
    omega

/-- The physical word a word of a window is, computed from the first page of its first entry. -/
def windowWord (pmBaseAddr p : ℕ) : ℕ := p + (pmBaseAddr / 262144 - 2) * 134217728

/-- An own address is the address of that word. -/
theorem ownAddress_windowOffset (pmBaseAddr p : ℕ) :
    ownAddress (windowOffset .b64 pmBaseAddr) p =
      BitVec.ofNat 64 (windowWord pmBaseAddr p * 8) := by
  have hoffset : (if pmBaseAddr / 262144 * 262144 ≥ 524288 then
      pmBaseAddr / 262144 * 262144 - 524288 else 0) = (pmBaseAddr / 262144 - 2) * 262144 := by
    split <;> omega
  have hword : windowWord pmBaseAddr p * 8 =
      p * 8 + (pmBaseAddr / 262144 - 2) * 262144 * 4096 := by
    rw [windowWord]
    omega
  rw [hword, ← hoffset]
  exact (BitVec.ofNat_add _ _).symm

theorem VmemState.Inv.physWord_of_lt {flags : CpuFlags} {s : VmemState} (hs : s.Inv flags)
    (hp : p < 268435456) : s.physWord flags p = p := by
  rw [VmemState.physWord, hs.translate_of_lt (by omega)]
  omega

theorem VmemState.Inv.physWord_of_le {flags : CpuFlags} {s : VmemState} (hs : s.Inv flags)
    (hpae : flags.pae = true) (hlo : 268435456 ≤ p) (hhi : p < 402653184)
    (hwindow : s.mappedWindow < 2 ^ 22) :
    s.physWord flags p = s.mappedWindow * 134217728 + (p - 268435456) := by
  rw [VmemState.physWord, hs.translate_of_le hpae (by omega) (by omega) hwindow]
  omega

/-- **Where the words of a window are.** Once `map_window` has been called for the first entry of a
window, a word in it is the physical word that the first page of this entry tells. -/
theorem physWord_eq_windowWord {flags : CpuFlags} {s s' : VmemState} (hs : s.Inv flags)
    (hpae : flags.pae = true) (hk : 1 ≤ k) (hphys : winBound k < 2 ^ 40) {vmMap : List VmSegment}
    (hmap : ∀ seg ∈ vmMap, IsEntry (winBound k) (winBound (k + 1)) seg) {seg : VmSegment}
    (hseg : seg ∈ vmMap) (h : s.mapWindow flags (firstPmBaseAddr vmMap) = some s')
    (hp : seg.HasWord .b64 p) :
    s'.physWord flags p = windowWord (firstPmBaseAddr vmMap) p ∧
      windowWord (firstPmBaseAddr vmMap) p * 8 < 2 ^ 52 := by
  obtain ⟨hlow, hhigh⟩ := hasWord_bounds hk (hmap seg hseg) hp
  -- the first entry belongs to the same window
  obtain ⟨first, hfirst, hbase⟩ : ∃ first ∈ vmMap, firstPmBaseAddr vmMap = first.pmBaseAddr := by
    cases vmMap with
    | nil => exact absurd hseg List.not_mem_nil
    | cons first rest => exact ⟨first, List.mem_cons_self, rfl⟩
  obtain ⟨idx, lo, hi, rfl, hlo, hlo', -⟩ := hmap first hfirst
  rw [hbase] at h ⊢
  have hbase' : (vmSegment idx lo hi).pmBaseAddr = lo := rfl
  rw [hbase'] at h ⊢
  rw [windowWord]
  obtain hk2 | hk3 : k ≤ 2 ∨ 3 ≤ k := by omega
  · have hwin := winBound_le_of_le_two hk2
    have hword := hlow hk2
    rw [(hs.mapWindow h).physWord_of_lt hword]
    omega
  · obtain ⟨hstart, hstop⟩ := winBound_of_three_le hk3
    have hword := hhigh hk3
    have hmapped : s'.mappedWindow = lo / 262144 := by
      obtain ⟨hlt, -⟩ | ⟨hfalse, -⟩ | ⟨-, -, rfl⟩ := VmemState.mapWindow_cases h
      · omega
      · exact absurd (hpae.symm.trans hfalse) (by decide)
      · rfl
    rw [(hs.mapWindow h).physWord_of_le hpae hword.1 hword.2 (by omega), hmapped]
    omega

end

end Memtest
