import Memtest.Pmem.PmMapSpec

/-!
# The reserved range from 640KB to 1MB

`init_pm_map` clips an entry whose start or end lies strictly inside the reserved range. An entry
that starts at or below the range and ends at or above it has neither bound inside, so it is not
clipped and its segment covers the range. So does the segment of an entry in the last page of the
address space, because rounding its start up wraps to page 0. All other segments stay clear of
the range.
-/

namespace Memtest

/-- No page of the reserved range is in the map, in page numbers: the frame buffer, the option
ROMs and the firmware lie between 640KB and 1MB, whatever the firmware's map says about them. -/
def AvoidsReserved (s : PmState) : Prop :=
  ∀ seg ∈ s.pmMap, ∀ page, 0xa0 ≤ page → page < 0x100 → ¬ seg.Contains page

/-- The condition on a firmware map: it is rejected because an entry wraps, or no usable piece
spans the reserved range or starts in the last page. The bounds are included in what spans the
range, since `init_pm_map` compares them strictly; a piece that starts exactly at 640KB and ends
exactly at 1MB is kept whole as well. -/
def ClippedSafely (origMap : List E820Entry) : Prop :=
  (∃ e ∈ origMap, e.wraps = true) ∨
    ∀ lo hi type, UsablePiece origMap lo hi type →
      ¬ (lo ≤ reservedMemStart.toNat ∧ reservedMemEnd.toNat ≤ hi) ∧
        lo + (pageSize - 1) < 2 ^ 64

/-- The segment of an entry has a reserved page exactly when the entry spans the reserved range or
starts in the last page of the address space, and then it has all of them. -/
theorem contains_reserved_iff {e : E820Entry} {seg : PmSegment} (hlt : e.span.lo < e.span.hi)
    (hhi : e.span.hi < 2 ^ 64) (h : rawSegment e = some seg) {page : ℕ} (hlo : 0xa0 ≤ page)
    (hpage : page < 0x100) :
    seg.Contains page ↔
      (e.span.lo ≤ 0xa0000 ∧ 0x100000 ≤ e.span.hi) ∨ 2 ^ 64 ≤ e.span.lo + 4095 := by
  obtain ⟨hstart, hstop⟩ := rawSegment_spec hhi h
  rw [PmSegment.Contains, hstart, hstop]
  simp only [clipLo, clipHi]
  split <;> split <;> omega

/-- **The reserved range stays out of the map exactly when no usable piece spans it** (or starts
in the last page), if the firmware's map is not rejected.

The two exceptions are independent. The first is a missing case of the clipping, the second the
wrapped rounding of `RoundsSafely`, whose segment begins at page 0 and so runs through the range.
A piece with one bound strictly inside the range is clipped as intended. -/
theorem pmemInit_avoidsReserved_iff (e820Map : List E820Entry) :
    AvoidsReserved (pmemInit e820Map) ↔ ClippedSafely (bootE820Map e820Map) := by
  by_cases hany : ∃ e ∈ bootE820Map e820Map, e.wraps = true
  · refine iff_of_true ?_ (.inl hany)
    intro seg hseg
    rw [mem_pmemInit, sanitizeE820Map_of_wraps hany] at hseg
    simp [mergeSegments] at hseg
  have hwrap : ∀ e ∈ bootE820Map e820Map, e.wraps = false := by simpa using hany
  have horder := inOrder_sanitizeE820Map hwrap
  have hstart : reservedMemStart.toNat = 0xa0000 := rfl
  have hend : reservedMemEnd.toNat = 0x100000 := rfl
  have hsize : pageSize = 4096 := rfl
  constructor
  · intro h
    refine .inr fun lo hi type hp => ?_
    obtain ⟨e, he, husable, hspan⟩ := (usablePiece_iff hwrap).mp hp
    have hlt := horder.lt e he
    have hhi := horder.hi_lt e he
    by_contra hbad
    have hbad' : (e.span.lo ≤ 0xa0000 ∧ 0x100000 ≤ e.span.hi) ∨ 2 ^ 64 ≤ e.span.lo + 4095 := by
      rw [hspan]
      rw [hstart, hend, hsize] at hbad
      dsimp only
      omega
    have hnone : rawSegment e ≠ none := fun hn => by
      rcases (rawSegment_eq_none_iff hlt hhi).mp hn with hn | hn
      · exact hn husable
      · rw [InHole, hstart, hend] at hn
        omega
    obtain ⟨r, hr⟩ := Option.ne_none_iff_exists'.mp hnone
    -- the whole range is in the segment, so merging cannot lose its last page
    have hfirst : r.Contains 0xa0 :=
      (contains_reserved_iff hlt hhi hr (by omega) (by omega)).mpr hbad'
    have hlast : r.Contains 0xff :=
      (contains_reserved_iff hlt hhi hr (by omega) (by omega)).mpr hbad'
    have hlo : r.start.toNat < 0xff := lt_of_le_of_lt hfirst.1 (by decide)
    obtain ⟨seg, hseg, hc⟩ := (chain_of_inOrder horder).exists_contains
      (List.mem_filterMap.mpr ⟨e, he, hr⟩) hlo hlast.2
    exact h seg (mem_pmemInit.mpr hseg) 0xff (by omega) (by omega) hc
  · intro h seg hseg page hlo hpage hc
    obtain ⟨r, hr, hrc⟩ := exists_raw_of_contains seg (mem_pmemInit.mp hseg) hc
    obtain ⟨e, he, hraw⟩ := List.mem_filterMap.mp hr
    have hlt := horder.lt e he
    have hhi := horder.hi_lt e he
    have husable : e.IsUsable := by
      by_contra hn
      simp [(rawSegment_eq_none_iff hlt hhi).mpr (.inl hn)] at hraw
    have hgood := h.resolve_left hany e.span.lo e.span.hi e.type
      ((usablePiece_iff hwrap).mpr ⟨e, he, husable, rfl⟩)
    have hbad := (contains_reserved_iff hlt hhi hraw hlo hpage).mp hrc
    rw [hstart, hend, hsize] at hgood
    omega

/-- A RAM entry for the first two megabytes is mapped whole. -/
theorem pmemInit_not_avoidsReserved_spanning :
    ¬ AvoidsReserved (pmemInit [⟨0#64, 0x200000#64, 1⟩]) := by
  intro h
  have hmem : (⟨0#64, 0x200#64⟩ : PmSegment) ∈ (pmemInit [⟨0#64, 0x200000#64, 1⟩]).pmMap := by
    decide
  exact h _ hmem 0xa0 (by omega) (by omega) ⟨by decide, by decide⟩

end Memtest
