import Memtest.Windows.Coverage
import Mathlib.Algebra.Order.BigOperators.Group.List
import Mathlib.Order.CompletePartialOrder

/-!
# When splitting at the memory affinity ranges gives a partition

With NUMA the code walks along each part of a segment and asks
`smp_narrow_to_proximity_domain` for the next piece at every *split point* it comes to. The
entries of `vm_map` partition the pages to test exactly when at every split point one of the
following holds: the function finds a piece, and the piece holds as many whole pages as there are
between the pages it starts and ends in; or it finds none, and nothing but a fraction of the first
page has been split off so far. Otherwise the fallback maps the pages split off a second time.
-/

namespace Memtest

open DisjointSets

/-! ### Split points -/

/-- A point at which the code asks for the next piece of a part: the part, as page numbers, and
the address from which on it has not been mapped yet. The address is what the previous call has
returned as the end of its piece, and so need not be the start of a page. -/
structure SplitPoint where
  part : ℕ × ℕ
  start : ℕ
  deriving DecidableEq, Repr

namespace SplitPoint

/-- The split point at the start of a part. -/
def first (part : ℕ × ℕ) : SplitPoint := ⟨part, pageAddr part.1⟩

variable (ranges : List MemoryAffinity)

/-- The next piece at a split point. -/
def piece (pt : SplitPoint) : Option Narrowed :=
  smpNarrowToProximityDomain ranges pt.start (pageAddr pt.part.2)

/-- The next split point of the same part, if the piece does not reach its end. -/
def next (pt : SplitPoint) : Option SplitPoint :=
  (pt.piece ranges).bind fun n =>
    if n.newEnd ≠ pageAddr pt.part.2 then some ⟨pt.part, n.newEnd⟩ else none

/-- The entry added at a split point. -/
def entry (pt : SplitPoint) : VmSegment :=
  match pt.piece ranges with
  | some n => vmSegment n.proximityDomainIdx (n.newStart >>> pageShift) (n.newEnd >>> pageShift)
  | none => vmSegment 0 pt.part.1 pt.part.2

/-- What is added to `num_mapped_pages` at a split point. -/
def pageCount (pt : SplitPoint) : ℕ :=
  match pt.piece ranges with
  | some n => (n.newEnd - n.newStart) >>> pageShift
  | none => pt.part.2 - pt.part.1

/-- The physical pages of the entry added at a split point. -/
def pages (mappedWindow : ℕ) (pt : SplitPoint) : Set ℕ :=
  {page | (pt.entry ranges).Covers mappedWindow page}

/-- A piece that lies in one page has an entry without words. This fails for page 0 and for the
first page of a gigabyte above the third, where the page below is not mapped just below: the last
word of such an entry is one word below its first, and that address belongs to another page or to
none. -/
def EmptyHarmless (page : ℕ) : Prop := page ≠ 0 ∧ ¬ (524288 < page ∧ 262144 ∣ page)

/-- The condition on a split point, on the table of memory affinity ranges and the point alone.
Where the function finds a piece, the piece must not lose a fraction of a page, and where it lies
in a single page its empty entry must do no harm. Where it finds none, the code maps the whole
part, which is right only if nothing but a fraction of its first page has been split off before. -/
def Safe (pt : SplitPoint) : Prop :=
  match pt.piece ranges with
  | some n => pt.start % pageSize ≤ n.newEnd % pageSize ∧
      (pt.start / pageSize = n.newEnd / pageSize → EmptyHarmless (pt.start / pageSize))
  | none => pt.start / pageSize = pt.part.1

end SplitPoint

/-- The split points the code goes through, from a list of points that are still to come, as long
as `vm_map` has room for a further entry. -/
def splitPoints (ranges : List MemoryAffinity) : ℕ → List SplitPoint → List SplitPoint
  | 0, _ => []
  | _ + 1, [] => []
  | room + 1, pt :: pts => pt :: splitPoints ranges room ((pt.next ranges).toList ++ pts)

/-- The split points of a window. -/
def splitPointsOf (ranges : List MemoryAffinity) (limits : PageLimits) (pmMap : List PmSegment)
    (winStart winEnd : ℕ) : List SplitPoint :=
  splitPoints ranges maxMemSegments ((parts limits pmMap winStart winEnd).map .first)

theorem smpNarrow_newStart {ranges : List MemoryAffinity} {start stop : ℕ} {n : Narrowed}
    (h : smpNarrowToProximityDomain ranges start stop = some n) : n.newStart = start := by
  induction ranges with
  | nil => simp [smpNarrowToProximityDomain] at h
  | cons range ranges ih =>
    rw [smpNarrowToProximityDomain] at h
    split_ifs at h
    all_goals first
      | exact ih h
      | (obtain rfl := Option.some.inj h; rfl)

theorem smpNarrow_newEnd {ranges : List MemoryAffinity} {start stop : ℕ} {n : Narrowed}
    (h : smpNarrowToProximityDomain ranges start stop = some n) (hlt : start < stop) :
    start < n.newEnd ∧ n.newEnd ≤ stop := by
  induction ranges with
  | nil => simp [smpNarrowToProximityDomain] at h
  | cons range ranges ih =>
    rw [smpNarrowToProximityDomain] at h
    split_ifs at h
    all_goals first
      | exact ih h
      | (obtain rfl := Option.some.inj h; dsimp only; omega)

/-! ### The code goes through the split points -/

section

variable {ranges : List MemoryAffinity}

/-- Adding the entry of a split point. -/
def addEntry (ranges : List MemoryAffinity) (s : VmMapState) (pt : SplitPoint) : VmMapState :=
  ⟨s.vmMap ++ [pt.entry ranges], s.numMappedPages + pt.pageCount ranges⟩

theorem foldl_addEntry (pts : List SplitPoint) (s : VmMapState) :
    pts.foldl (addEntry ranges) s =
      ⟨s.vmMap ++ pts.map (SplitPoint.entry ranges),
        s.numMappedPages + (pts.map (SplitPoint.pageCount ranges)).sum⟩ := by
  induction pts generalizing s with
  | nil => simp
  | cons pt pts ih =>
    rw [List.foldl_cons, ih, addEntry]
    simp [Nat.add_assoc]

/-- One iteration of the splitting loop adds the entry of the split point, and goes on at the next
one. -/
theorem splitLoop_succ (pt : SplitPoint) (room : ℕ) (s : VmMapState) :
    splitLoop ranges pt.part.1 pt.part.2 (room + 1) pt.start s =
      match pt.next ranges with
      | some pt' => splitLoop ranges pt'.part.1 pt'.part.2 room pt'.start (addEntry ranges s pt)
      | none => addEntry ranges s pt := by
  rw [splitLoop, SplitPoint.next, addEntry, SplitPoint.entry, SplitPoint.pageCount,
    SplitPoint.piece]
  cases h : smpNarrowToProximityDomain ranges pt.start (pageAddr pt.part.2) with
  | none => rfl
  | some n =>
    have hstart := smpNarrow_newStart h
    by_cases hend : n.newEnd = pageAddr pt.part.2
    · simp [hstart, hend, numaEntry]
    · simp [hstart, hend, numaEntry]

variable {numa : NumaConfig} (hnuma : numa.enableNuma = true)

include hnuma

theorem mapPart_numa {room : ℕ} {s : VmMapState} (hroom : s.vmMap.length + room = maxMemSegments)
    (part : ℕ × ℕ) : mapPart numa s part =
      splitLoop numa.memoryAffinityRanges part.1 part.2 room (pageAddr part.1) s := by
  rw [mapPart, if_pos hnuma, ← hroom, Nat.add_sub_cancel_left]

/-- From a split point on, the code adds the entries of the split points to come. -/
theorem foldl_mapPart_splitLoop {room : ℕ} (pt : SplitPoint) (ps : List (ℕ × ℕ)) {s : VmMapState}
    (hroom : s.vmMap.length + room = maxMemSegments) :
    ps.foldl (mapPart numa)
        (splitLoop numa.memoryAffinityRanges pt.part.1 pt.part.2 room pt.start s) =
      (splitPoints numa.memoryAffinityRanges room (pt :: ps.map .first)).foldl
        (addEntry numa.memoryAffinityRanges) s := by
  induction room generalizing pt ps s with
  | zero =>
    -- there is no room left: nothing changes any more
    rw [splitLoop, splitPoints, List.foldl_nil]
    induction ps with
    | nil => rfl
    | cons p ps ih =>
      rw [List.foldl_cons, mapPart_numa hnuma hroom, splitLoop]
      exact ih
  | succ room ih =>
    have hroom' : (addEntry numa.memoryAffinityRanges s pt).vmMap.length + room =
        maxMemSegments := by
      rw [addEntry, List.length_append, List.length_singleton]
      omega
    rw [splitLoop_succ, splitPoints, List.foldl_cons]
    cases pt.next numa.memoryAffinityRanges with
    | some pt' => exact ih pt' ps hroom'
    | none =>
      cases ps with
      | nil => cases room <;> rfl
      | cons p ps =>
        dsimp only
        rw [List.foldl_cons, mapPart_numa hnuma hroom']
        exact ih (.first p) ps hroom'

/-- **Refinement.** With NUMA, `vm_map` has the entries of the split points. -/
theorem setupVmMap_numa (limits : PageLimits) (pmMap : List PmSegment) (winStart winEnd : ℕ) :
    let pts := splitPointsOf numa.memoryAffinityRanges limits pmMap winStart winEnd
    setupVmMap numa limits pmMap winStart winEnd =
      ⟨pts.map (SplitPoint.entry numa.memoryAffinityRanges),
        (pts.map (SplitPoint.pageCount numa.memoryAffinityRanges)).sum⟩ := by
  dsimp only
  rw [setupVmMap_eq, splitPointsOf]
  cases hparts : parts limits pmMap winStart winEnd with
  | nil => rfl
  | cons p ps =>
    have hroom : (⟨[], 0⟩ : VmMapState).vmMap.length + maxMemSegments = maxMemSegments := by
      simp
    rw [List.foldl_cons, mapPart_numa hnuma hroom]
    have h := foldl_mapPart_splitLoop hnuma (.first p) ps hroom
    rw [foldl_addEntry, List.nil_append, Nat.zero_add] at h
    exact h

end

/-! ### The pages of one entry -/

/-- A range of pages lies in a mapped window. -/
structure InWindow (winStart winEnd mappedWindow lo hi : ℕ) : Prop where
  mapped : IsMapped winStart winEnd mappedWindow
  winStart_le : winStart ≤ lo
  le : lo ≤ hi
  le_winEnd : hi ≤ winEnd
  lt : hi < 2 ^ 52

section

variable {winStart winEnd mappedWindow idx lo hi : ℕ}

theorem InWindow.covers_iff (h : InWindow winStart winEnd mappedWindow lo hi) (hlt : lo < hi)
    {page : ℕ} :
    (vmSegment idx lo hi).Covers mappedWindow page ↔ lo ≤ page ∧ page < hi := by
  have h1 := h.winStart_le
  have h2 := h.le_winEnd
  have h3 := h.lt
  refine covers_vmSegment (k := mappedWindow) hlt ?_ (by omega)
  rcases h.mapped with hm | ⟨hm, hm1, hm2⟩
  · exact .inl (by omega)
  · exact .inr ⟨by omega, by omega, hm, rfl⟩

/-- The entry for no page at all covers nothing. -/
theorem not_covers_of_emptyHarmless (h : SplitPoint.EmptyHarmless lo) (hlt : lo < 2 ^ 52)
    {page : ℕ} : ¬ (vmSegment idx lo lo).Covers mappedWindow page := by
  rintro ⟨addr, hstart, hstop, -⟩
  have h1 : firstWordMapping lo ≤ addr := hstart
  have h2 : addr ≤ firstWordMapping (prevPage lo) + 4088 := hstop
  obtain ⟨hne, hgb⟩ := h
  have hprev : prevPage lo = lo - 1 := by rw [prevPage]; omega
  rw [hprev] at h2
  rcases Nat.lt_or_ge (lo - 1) 524288 with hlow | hhigh
  · rw [firstWordMapping_of_lt hlow] at h2
    rcases Nat.lt_or_ge lo 524288 with hlow' | hhigh'
    · rw [firstWordMapping_of_lt hlow'] at h1
      omega
    · rw [firstWordMapping_of_le hhigh'] at h1
      omega
  · rw [firstWordMapping_of_le hhigh] at h2
    rw [firstWordMapping_of_le (by omega)] at h1
    omega

/-- Where the page below is not mapped just below, the entry for no page covers one. -/
theorem covers_of_not_emptyHarmless (h : ¬ SplitPoint.EmptyHarmless lo)
    (hwin : InWindow winStart winEnd mappedWindow lo lo) (hlt : lo < winEnd) :
    (vmSegment idx lo lo).Covers mappedWindow lo := by
  have h1 := hwin.winStart_le
  have h2 := hwin.lt
  rw [SplitPoint.EmptyHarmless, not_and_or, not_not, not_not] at h
  have hstop : (vmSegment idx lo lo).stop = firstWordMapping (prevPage lo) + 4088 := rfl
  refine ⟨firstWordMapping lo, le_rfl, ?_, ?_⟩
  · rw [hstop]
    rcases h with rfl | ⟨h3, h4⟩
    · exact Nat.zero_le _
    · have hprev : prevPage lo = lo - 1 := by rw [prevPage]; omega
      rw [hprev, firstWordMapping_of_le (by omega), firstWordMapping_of_le (by omega)]
      omega
  · rw [pageOf_eq]
    rcases h with rfl | ⟨h3, h4⟩
    · rfl
    · rw [firstWordMapping_of_le h3.le, Nat.mul_div_cancel _ (by decide), if_pos (by omega)]
      rcases hwin.mapped with hm | ⟨hm, hm1, hm2⟩ <;> omega

theorem finite_covers (seg : VmSegment) : {page | seg.Covers mappedWindow page}.Finite := by
  refine ((Set.finite_Icc seg.start seg.stop).image (pageOf mappedWindow)).subset ?_
  rintro page ⟨addr, h1, h2, rfl⟩
  exact ⟨addr, ⟨h1, h2⟩, rfl⟩

end

/-! ### The pages of a split point -/

namespace SplitPoint

/-- A split point inside its part, and its part inside a mapped window. -/
structure Valid (winStart winEnd mappedWindow : ℕ) (pt : SplitPoint) : Prop where
  mapped : IsMapped winStart winEnd mappedWindow
  winStart_le : winStart ≤ pt.part.1
  le_winEnd : pt.part.2 ≤ winEnd
  lt : pt.part.2 < 2 ^ 52
  le_start : pt.part.1 * 4096 ≤ pt.start
  start_lt : pt.start < pt.part.2 * 4096

section

variable {ranges : List MemoryAffinity} {winStart winEnd mappedWindow : ℕ} {pt : SplitPoint}
  {n : Narrowed}

theorem pageAddr_eq {page : ℕ} (h : page < 2 ^ 52) : pageAddr page = page * 4096 := by
  rw [pageAddr, Nat.shiftLeft_eq, show 2 ^ pageShift = 4096 from rfl]
  exact Nat.mod_eq_of_lt (by omega)

theorem Valid.piece_spec (hv : pt.Valid winStart winEnd mappedWindow)
    (h : pt.piece ranges = some n) :
    n.newStart = pt.start ∧ pt.start < n.newEnd ∧ n.newEnd ≤ pt.part.2 * 4096 := by
  rw [piece, pageAddr_eq hv.lt] at h
  exact ⟨smpNarrow_newStart h, smpNarrow_newEnd h hv.start_lt⟩

/-- The pages of a piece lie in the window. -/
theorem Valid.inWindow (hv : pt.Valid winStart winEnd mappedWindow)
    (h : pt.piece ranges = some n) :
    InWindow winStart winEnd mappedWindow (pt.start / 4096) (n.newEnd / 4096) := by
  obtain ⟨-, h1, h2⟩ := hv.piece_spec h
  have h3 := hv.winStart_le
  have h4 := hv.le_start
  have h5 := hv.le_winEnd
  have h6 := hv.lt
  exact ⟨hv.mapped, by omega, by omega, by omega, by omega⟩

theorem Valid.pages_some (hv : pt.Valid winStart winEnd mappedWindow)
    (h : pt.piece ranges = some n) :
    pt.pages ranges mappedWindow = {page | (vmSegment n.proximityDomainIdx (pt.start / 4096)
      (n.newEnd / 4096)).Covers mappedWindow page} := by
  have hstart := (hv.piece_spec h).1
  simp only [pages, entry, h, hstart, Nat.shiftRight_eq_div_pow]
  rfl

theorem Valid.pages_of_lt (hv : pt.Valid winStart winEnd mappedWindow)
    (h : pt.piece ranges = some n) (hlt : pt.start / 4096 < n.newEnd / 4096) :
    pt.pages ranges mappedWindow = Set.Ico (pt.start / 4096) (n.newEnd / 4096) := by
  rw [hv.pages_some h]
  ext page
  exact (hv.inWindow h).covers_iff hlt

theorem Valid.pages_none (hv : pt.Valid winStart winEnd mappedWindow)
    (h : pt.piece ranges = none) :
    pt.pages ranges mappedWindow = Set.Ico pt.part.1 pt.part.2 := by
  have h1 := hv.le_start
  have h2 := hv.start_lt
  have hwin : InWindow winStart winEnd mappedWindow pt.part.1 pt.part.2 :=
    ⟨hv.mapped, hv.winStart_le, by omega, hv.le_winEnd, hv.lt⟩
  simp only [pages, entry, h]
  ext page
  exact hwin.covers_iff (by omega)

theorem finite_pages : (pt.pages ranges mappedWindow).Finite := finite_covers _

theorem ncard_Ico (lo hi : ℕ) : (Set.Ico lo hi).ncard = hi - lo := by
  rw [Set.ncard_eq_toFinset_card', Set.toFinset_Ico, Nat.card_Ico]

theorem pageCount_some (hv : pt.Valid winStart winEnd mappedWindow)
    (h : pt.piece ranges = some n) : pt.pageCount ranges = (n.newEnd - pt.start) / 4096 := by
  rw [← (hv.piece_spec h).1]
  simp only [pageCount, h, Nat.shiftRight_eq_div_pow]
  rfl

theorem safe_some_iff (h : pt.piece ranges = some n) :
    pt.Safe ranges ↔ pt.start % 4096 ≤ n.newEnd % 4096 ∧
      (pt.start / 4096 = n.newEnd / 4096 → EmptyHarmless (pt.start / 4096)) := by
  rw [Safe, h, pageSize_eq]

theorem safe_none_iff (h : pt.piece ranges = none) :
    pt.Safe ranges ↔ pt.start / 4096 = pt.part.1 := by
  rw [Safe, h, pageSize_eq]

/-- **At a split point with a piece** the count is right exactly when the split point is safe. -/
theorem Valid.pageCount_eq_iff (hv : pt.Valid winStart winEnd mappedWindow)
    (h : pt.piece ranges = some n) :
    pt.pageCount ranges = (pt.pages ranges mappedWindow).ncard ↔ pt.Safe ranges := by
  obtain ⟨-, h1, h2⟩ := hv.piece_spec h
  have hend := hv.le_winEnd
  have hwin := hv.inWindow h
  rw [pageCount_some hv h, safe_some_iff h]
  rcases Nat.lt_or_ge (pt.start / 4096) (n.newEnd / 4096) with hlt | hge
  · rw [hv.pages_of_lt h hlt, ncard_Ico]
    omega
  · have heq : n.newEnd / 4096 = pt.start / 4096 := by omega
    have hzero : (n.newEnd - pt.start) / 4096 = 0 := by omega
    rw [heq] at hwin
    rw [hzero, eq_comm, Set.ncard_eq_zero finite_pages, hv.pages_some h, heq]
    constructor
    · intro hempty
      refine ⟨by omega, fun _ => ?_⟩
      by_contra hharm
      have hc : pt.start / 4096 ∈ {page | (vmSegment n.proximityDomainIdx (pt.start / 4096)
          (pt.start / 4096)).Covers mappedWindow page} :=
        covers_of_not_emptyHarmless hharm hwin (by omega)
      rw [hempty] at hc
      exact hc
    · rintro ⟨-, hharm⟩
      ext page
      simp only [Set.mem_empty_iff_false, iff_false]
      exact not_covers_of_emptyHarmless (hharm rfl) (by have := hwin.lt; omega)

theorem Valid.pageCount_none (hv : pt.Valid winStart winEnd mappedWindow)
    (h : pt.piece ranges = none) :
    pt.pageCount ranges = (pt.pages ranges mappedWindow).ncard := by
  rw [hv.pages_none h, ncard_Ico, pageCount, h]

/-- Nothing is counted that is not mapped. -/
theorem Valid.pageCount_le (hv : pt.Valid winStart winEnd mappedWindow) :
    pt.pageCount ranges ≤ (pt.pages ranges mappedWindow).ncard := by
  cases h : pt.piece ranges with
  | none => exact (hv.pageCount_none h).le
  | some n =>
    rcases Nat.lt_or_ge (pt.start / 4096) (n.newEnd / 4096) with hlt | hge
    · rw [hv.pages_of_lt h hlt, ncard_Ico, pageCount_some hv h]
      omega
    · obtain ⟨-, h1, -⟩ := hv.piece_spec h
      have hzero : (n.newEnd - pt.start) / 4096 = 0 := by omega
      rw [pageCount_some hv h, hzero]
      exact Nat.zero_le _

theorem Valid.pageCount_of_safe (hv : pt.Valid winStart winEnd mappedWindow)
    (hs : pt.Safe ranges) : pt.pageCount ranges = (pt.pages ranges mappedWindow).ncard := by
  cases h : pt.piece ranges with
  | none => exact hv.pageCount_none h
  | some n => exact (hv.pageCount_eq_iff h).mpr hs

theorem Valid.next_some (hv : pt.Valid winStart winEnd mappedWindow) {pt' : SplitPoint}
    (h : pt.next ranges = some pt') :
    pt'.Valid winStart winEnd mappedWindow ∧ pt'.part = pt.part ∧
      ∃ n, pt.piece ranges = some n ∧ pt'.start = n.newEnd := by
  obtain ⟨n, hn, hpt'⟩ := Option.bind_eq_some_iff.mp h
  obtain ⟨-, h1, h2⟩ := hv.piece_spec hn
  have hle := hv.le_start
  rw [pageAddr_eq hv.lt] at hpt'
  split at hpt'
  · next hne =>
    obtain rfl := Option.some.inj hpt'
    refine ⟨⟨hv.mapped, hv.winStart_le, hv.le_winEnd, hv.lt, ?_, ?_⟩, rfl, n, hn, rfl⟩
    · dsimp only
      omega
    · dsimp only
      omega
  · simp at hpt'

theorem Valid.next_none (hv : pt.Valid winStart winEnd mappedWindow) (h : pt.next ranges = none)
    (hn : pt.piece ranges = some n) : n.newEnd = pt.part.2 * 4096 := by
  rw [next, hn, pageAddr_eq hv.lt] at h
  by_contra hne
  simp [hne] at h

/-- At a safe split point the entry maps the pages from the split point up to some page, and the
next split point goes on there. -/
theorem Valid.pages_of_safe (hv : pt.Valid winStart winEnd mappedWindow) (hs : pt.Safe ranges) :
    ∃ hi, pt.pages ranges mappedWindow = Set.Ico (pt.start / 4096) hi ∧ hi ≤ pt.part.2 ∧
      pt.start / 4096 ≤ hi ∧
      ((∃ pt', pt.next ranges = some pt' ∧ pt'.start / 4096 = hi) ∨
        (pt.next ranges = none ∧ hi = pt.part.2)) := by
  have hle := hv.le_start
  have hlt := hv.start_lt
  cases h : pt.piece ranges with
  | none =>
    refine ⟨pt.part.2, ?_, le_rfl, by omega, .inr ⟨by rw [next, h]; rfl, rfl⟩⟩
    rw [hv.pages_none h, (safe_none_iff h).mp hs]
  | some n =>
    obtain ⟨-, h1, h2⟩ := hv.piece_spec h
    refine ⟨n.newEnd / 4096, ?_, by omega, by omega, ?_⟩
    · rcases Nat.lt_or_ge (pt.start / 4096) (n.newEnd / 4096) with hlt' | hge
      · exact hv.pages_of_lt h hlt'
      · -- the piece lies in one page, and its entry is empty
        have hcount := (hv.pageCount_eq_iff h).mpr hs
        have hzero : (n.newEnd - pt.start) / 4096 = 0 := by omega
        rw [pageCount_some hv h, hzero, eq_comm, Set.ncard_eq_zero finite_pages] at hcount
        rw [hcount, Set.Ico_eq_empty (by omega)]
    · cases hnext : pt.next ranges with
      | none =>
        have := hv.next_none hnext h
        exact .inr ⟨rfl, by omega⟩
      | some pt' =>
        obtain ⟨-, -, n', hn', hstart⟩ := hv.next_some hnext
        obtain rfl : n = n' := Option.some.inj (h.symm.trans hn')
        exact .inl ⟨pt', rfl, by rw [hstart]⟩

end

end SplitPoint

/-! ### The walk -/

section

variable {ranges : List MemoryAffinity} {winStart winEnd mappedWindow : ℕ}

/-- The split points still to come: those behind the first one are at the start of their parts,
and the parts do not overlap. -/
structure Pending (winStart winEnd mappedWindow : ℕ) (pts : List SplitPoint) : Prop where
  valid : ∀ pt ∈ pts, pt.Valid winStart winEnd mappedWindow
  pairwise : pts.Pairwise fun a b => a.part.2 ≤ b.part.1 ∧ b.start = b.part.1 * 4096

/-- The pages from the split points to come up to the ends of their parts. -/
def remaining (pts : List SplitPoint) : Set ℕ :=
  {page | ∃ pt ∈ pts, pt.start / 4096 ≤ page ∧ page < pt.part.2}

theorem Pending.next {pt : SplitPoint} {pts : List SplitPoint}
    (h : Pending winStart winEnd mappedWindow (pt :: pts)) (ranges : List MemoryAffinity) :
    Pending winStart winEnd mappedWindow ((pt.next ranges).toList ++ pts) := by
  obtain ⟨hpt, hpts⟩ := List.pairwise_cons.mp h.pairwise
  cases hnext : pt.next ranges with
  | none => exact ⟨fun p hp => h.valid p (by simp at hp; simp [hp]), hpts⟩
  | some pt' =>
    obtain ⟨hv, hpart, -⟩ := (h.valid pt (by simp)).next_some hnext
    refine ⟨fun p hp => ?_, List.pairwise_cons.mpr ⟨fun p hp => ?_, hpts⟩⟩
    · obtain rfl | hp := List.mem_cons.mp hp
      · exact hv
      · exact h.valid p (List.mem_cons_of_mem _ hp)
    · rw [hpart]
      exact hpt p hp

theorem valid_of_mem_splitPoints {room : ℕ} {pts : List SplitPoint}
    (h : Pending winStart winEnd mappedWindow pts) {pt : SplitPoint}
    (hpt : pt ∈ splitPoints ranges room pts) : pt.Valid winStart winEnd mappedWindow := by
  induction room generalizing pts with
  | zero => simp [splitPoints] at hpt
  | succ room ih =>
    cases pts with
    | nil => simp [splitPoints] at hpt
    | cons cur pts =>
      obtain rfl | hmem := List.mem_cons.mp hpt
      · exact h.valid pt (by simp)
      · exact ih (h.next ranges) hmem

/-- The first entry of a safe walk maps what the split points to come leave. -/
theorem Pending.remaining_cons {pt : SplitPoint} {pts : List SplitPoint}
    (h : Pending winStart winEnd mappedWindow (pt :: pts)) (hs : pt.Safe ranges) :
    remaining (pt :: pts) =
        pt.pages ranges mappedWindow ∪ remaining ((pt.next ranges).toList ++ pts) ∧
      Disjoint (pt.pages ranges mappedWindow)
        (remaining ((pt.next ranges).toList ++ pts)) := by
  have hv := h.valid pt (by simp)
  obtain ⟨hi, hpages, hle, hlo, hnext⟩ := hv.pages_of_safe hs
  have hpt := (List.pairwise_cons.mp h.pairwise).1
  -- what is left of the part are its pages from `hi` on
  have hrest : remaining ((pt.next ranges).toList ++ pts) =
      {page | hi ≤ page ∧ page < pt.part.2} ∪ remaining pts := by
    ext page
    obtain ⟨pt', hpt', hstart⟩ | ⟨hnone, rfl⟩ := hnext
    · have hpart := (hv.next_some hpt').2.1
      simp [remaining, hpt', hstart, hpart]
    · have hempty : ¬ (pt.part.2 ≤ page ∧ page < pt.part.2) := by omega
      rw [hnone]
      exact ⟨.inr, fun hmem => hmem.resolve_left hempty⟩
  rw [hrest, hpages]
  constructor
  · ext page
    have hsplit : (pt.start / 4096 ≤ page ∧ page < pt.part.2) ↔
        (pt.start / 4096 ≤ page ∧ page < hi) ∨ (hi ≤ page ∧ page < pt.part.2) := by omega
    have hcons : page ∈ remaining (pt :: pts) ↔
        (pt.start / 4096 ≤ page ∧ page < pt.part.2) ∨ page ∈ remaining pts := by
      simp [remaining]
    rw [hcons, hsplit, or_assoc]
    rfl
  · rw [Set.disjoint_left]
    rintro page ⟨h1, h2⟩ (⟨h3, -⟩ | ⟨p, hp, h3, -⟩)
    · omega
    · obtain ⟨h4, h5⟩ := hpt p hp
      omega

/-- **A safe walk partitions** the pages to come, as far as `vm_map` has room. -/
theorem splitPoints_of_safe {room : ℕ} {pts : List SplitPoint}
    (h : Pending winStart winEnd mappedWindow pts)
    (hs : ∀ pt ∈ splitPoints ranges room pts, pt.Safe ranges) :
    ((splitPoints ranges room pts).map (SplitPoint.pages ranges mappedWindow)).Pairwise Disjoint ∧
      union ((splitPoints ranges room pts).map (SplitPoint.pages ranges mappedWindow)) ⊆
        remaining pts ∧
      ((splitPoints ranges room pts).length < room → remaining pts ⊆
        union ((splitPoints ranges room pts).map (SplitPoint.pages ranges mappedWindow))) := by
  induction room generalizing pts with
  | zero => simp [splitPoints]
  | succ room ih =>
    cases pts with
    | nil => simp [splitPoints, remaining]
    | cons pt pts =>
      rw [splitPoints] at hs ⊢
      obtain ⟨hcons, hdisj⟩ := h.remaining_cons (hs pt (by simp))
      obtain ⟨h1, h2, h3⟩ := ih (h.next ranges) fun p hp => hs p (List.mem_cons_of_mem _ hp)
      rw [List.map_cons, List.pairwise_cons, union_cons, hcons, List.length_cons]
      refine ⟨⟨fun s hsm => ?_, h1⟩, Set.union_subset_union_right _ h2, fun hlt =>
        Set.union_subset_union_right _ (h3 (by omega))⟩
      exact hdisj.mono_right fun x hx => h2 ⟨s, hsm, hx⟩

/-- In a walk whose entries do not overlap, the fallback is only used where no page of the part
has been split off. -/
theorem start_eq_of_disjoint {room : ℕ} {cur : SplitPoint} {pts : List SplitPoint}
    (h : Pending winStart winEnd mappedWindow (cur :: pts))
    (hdisj : ((splitPoints ranges room (cur :: pts)).map
      (SplitPoint.pages ranges mappedWindow)).Pairwise Disjoint)
    {pt : SplitPoint} (hpt : pt ∈ splitPoints ranges room (cur :: pts))
    (hnone : pt.piece ranges = none) :
    pt.start / 4096 = pt.part.1 ∨ (pt.part = cur.part ∧ cur.part.1 < cur.start / 4096) := by
  induction room generalizing cur pts with
  | zero => simp [splitPoints] at hpt
  | succ room ih =>
    have hv := h.valid cur (by simp)
    have hpend := h.next ranges
    rw [splitPoints] at hpt hdisj
    rw [List.map_cons, List.pairwise_cons] at hdisj
    obtain ⟨hhead, htail⟩ := hdisj
    obtain rfl | hmem := List.mem_cons.mp hpt
    · have := hv.le_start
      have := hv.start_lt
      exact (Nat.eq_or_lt_of_le (show pt.part.1 ≤ pt.start / 4096 by omega)).imp Eq.symm
        fun hlt => ⟨rfl, hlt⟩
    · cases hnext : cur.next ranges with
      | some cur' =>
        obtain ⟨hv', hpart, n, hn, hstart⟩ := hv.next_some hnext
        rw [hnext] at hpend hmem htail
        obtain hfirst | ⟨hsame, hlt⟩ := ih hpend htail hmem
        · exact .inl hfirst
        · -- if the part was entered here, the first page is split off and mapped again
          refine .inr ⟨hsame.trans hpart, ?_⟩
          by_contra hge
          have hle := hv.le_start
          rw [hpart, hstart] at hlt
          have h1 : cur.part.1 ∈ cur.pages ranges mappedWindow := by
            rw [hv.pages_of_lt hn (by omega)]
            exact ⟨by omega, hlt⟩
          have hvpt := valid_of_mem_splitPoints hpend hmem
          have h2 : cur.part.1 ∈ pt.pages ranges mappedWindow := by
            rw [hvpt.pages_none hnone, hsame, hpart]
            have := hv.start_lt
            exact ⟨le_rfl, by omega⟩
          exact Set.disjoint_left.mp (hhead _ (List.mem_map_of_mem (hnext ▸ hmem))) h1 h2
      | none =>
        rw [hnext] at hpend hmem htail
        cases pts with
        | nil => cases room <;> simp [splitPoints] at hmem
        | cons p pts =>
          obtain hfirst | ⟨-, hlt⟩ := ih hpend htail hmem
          · exact .inl hfirst
          · have hp := (List.pairwise_cons.mp h.pairwise).1 p (by simp)
            omega

end

/-! ### The partition -/

/-- The entries of `vm_map` partition the pages to test in a window, as far as the array has room,
and `num_mapped_pages` is their number. When the array is full the code stops without a message,
so a full array promises that nothing is tested twice or outside, but not that all is tested. -/
structure IsPartition (limits : PageLimits) (pmMap : List PmSegment)
    (winStart winEnd mappedWindow : ℕ) (vm : VmMapState) : Prop where
  disjoint : (vm.pageSets mappedWindow).Pairwise Disjoint
  subset : union (vm.pageSets mappedWindow) ⊆ pagesToTest limits pmMap winStart winEnd
  complete : vm.vmMap.length < maxMemSegments →
    pagesToTest limits pmMap winStart winEnd ⊆ union (vm.pageSets mappedWindow)
  counts : vm.numMappedPages = (union (vm.pageSets mappedWindow)).ncard

theorem sum_eq_of_le {α : Type*} {l : List α} {f g : α → ℕ} (hle : ∀ a ∈ l, f a ≤ g a)
    (hsum : (l.map f).sum = (l.map g).sum) : ∀ a ∈ l, f a = g a := by
  induction l with
  | nil => simp
  | cons b l ih =>
    have hle' : ∀ a ∈ l, f a ≤ g a := fun a ha => hle a (by simp [ha])
    have hb := hle b (by simp)
    have htail : (l.map f).sum ≤ (l.map g).sum := List.sum_le_sum hle'
    rw [List.map_cons, List.map_cons, List.sum_cons, List.sum_cons] at hsum
    intro a ha
    obtain rfl | ha := List.mem_cons.mp ha
    · omega
    · exact ih hle' (by omega) a ha

section

variable {numa : NumaConfig} {limits : PageLimits} {pmMap : List PmSegment}
  {winStart winEnd mappedWindow : ℕ}

theorem pending_parts (hpm : SortedPmMap pmMap) (hmapped : IsMapped winStart winEnd mappedWindow) :
    Pending winStart winEnd mappedWindow
      ((parts limits pmMap winStart winEnd).map SplitPoint.first) where
  valid := by
    intro pt hpt
    obtain ⟨p, hp, rfl⟩ := List.mem_map.mp hpt
    have h1 := lt_of_mem_parts hp
    have h2 := lt_bound_of_mem_parts hpm hp
    have hstart : (SplitPoint.first p).start = p.1 * 4096 := SplitPoint.pageAddr_eq (by omega)
    refine ⟨hmapped, h1.2.1, h1.2.2.1, h2, hstart.ge, ?_⟩
    rw [hstart]
    exact Nat.mul_lt_mul_of_pos_right h1.1 (by decide)
  pairwise := by
    rw [List.pairwise_map]
    refine (List.Pairwise.and_mem.mp (parts_pairwise hpm)).imp ?_
    rintro a b ⟨ha, hb, hab⟩
    have h1 := lt_of_mem_parts hb
    have h2 := lt_bound_of_mem_parts hpm hb
    exact ⟨hab, SplitPoint.pageAddr_eq (by omega)⟩

theorem remaining_parts (hpm : SortedPmMap pmMap) :
    remaining ((parts limits pmMap winStart winEnd).map SplitPoint.first) =
      pagesToTest limits pmMap winStart winEnd := by
  ext page
  rw [mem_pagesToTest_iff]
  simp only [remaining, Set.mem_ofPred_eq, List.mem_map, exists_exists_and_eq_and]
  refine exists_congr fun p => and_congr_right fun hp => ?_
  have h1 := lt_of_mem_parts hp
  have h2 := lt_bound_of_mem_parts hpm hp
  have hstart : (SplitPoint.first p).start = p.1 * 4096 := SplitPoint.pageAddr_eq (by omega)
  rw [hstart, Nat.mul_div_cancel _ (by decide)]
  rfl

/-- **NUMA window mapping.** With NUMA, `setup_vm_map` partitions the pages to test in a window
exactly when every split point is safe.

The split points are the ones the code really comes to: an unsafe one behind the last entry for
which `vm_map` has room does not count. The memory affinity ranges are any list, in any order;
that `numa_init` sorts and merges them is not used. -/
theorem setupVmMap_isPartition_iff (hnuma : numa.enableNuma = true) (hpm : SortedPmMap pmMap)
    (hmapped : IsMapped winStart winEnd mappedWindow) :
    IsPartition limits pmMap winStart winEnd mappedWindow
        (setupVmMap numa limits pmMap winStart winEnd) ↔
      ∀ pt ∈ splitPointsOf numa.memoryAffinityRanges limits pmMap winStart winEnd,
        pt.Safe numa.memoryAffinityRanges := by
  have hpend : Pending winStart winEnd mappedWindow
      ((parts limits pmMap winStart winEnd).map SplitPoint.first) := pending_parts hpm hmapped
  have hvm := setupVmMap_numa hnuma limits pmMap winStart winEnd
  dsimp only at hvm
  have hsets : (setupVmMap numa limits pmMap winStart winEnd).pageSets mappedWindow =
      (splitPointsOf numa.memoryAffinityRanges limits pmMap winStart winEnd).map
        (SplitPoint.pages numa.memoryAffinityRanges mappedWindow) := by
    rw [hvm, VmMapState.pageSets, List.map_map]
    rfl
  have hfin : ∀ s ∈ (splitPointsOf numa.memoryAffinityRanges limits pmMap winStart winEnd).map
      (SplitPoint.pages numa.memoryAffinityRanges mappedWindow), s.Finite := by
    intro s hs
    obtain ⟨pt, -, rfl⟩ := List.mem_map.mp hs
    exact SplitPoint.finite_pages
  constructor
  · intro h pt hpt
    have hdisj := h.disjoint
    rw [hsets] at hdisj
    have hcounts := h.counts
    rw [hsets, ncard_union hdisj hfin, hvm, List.map_map] at hcounts
    have hcount := sum_eq_of_le
      (fun p hp => (valid_of_mem_splitPoints hpend hp).pageCount_le) hcounts pt hpt
    have hv := valid_of_mem_splitPoints hpend hpt
    cases hpiece : pt.piece numa.memoryAffinityRanges with
    | some n => exact (hv.pageCount_eq_iff hpiece).mp hcount
    | none =>
      rw [SplitPoint.safe_none_iff hpiece]
      rw [splitPointsOf] at hdisj hpt
      cases hparts : parts limits pmMap winStart winEnd with
      | nil => simp [hparts, splitPoints, maxMemSegments] at hpt
      | cons p ps =>
        rw [hparts, List.map_cons] at hpend hdisj hpt
        obtain hfirst | ⟨-, hlt⟩ := start_eq_of_disjoint hpend hdisj hpt hpiece
        · exact hfirst
        · have hvp := hpend.valid (.first p) (by simp)
          have h1 : p.1 * 4096 ≤ (SplitPoint.first p).start := hvp.le_start
          have h2 : (SplitPoint.first p).start < p.2 * 4096 := hvp.start_lt
          have h3 : p.2 < 2 ^ 52 := hvp.lt
          have hstart : (SplitPoint.first p).start = p.1 * 4096 :=
            SplitPoint.pageAddr_eq (by omega)
          rw [hstart, Nat.mul_div_cancel _ (by decide)] at hlt
          exact absurd hlt (lt_irrefl _)
  · intro hs
    obtain ⟨h1, h2, h3⟩ := splitPoints_of_safe hpend hs
    rw [remaining_parts hpm] at h2 h3
    rw [← splitPointsOf] at h1 h2 h3
    refine ⟨?_, ?_, fun hlt => ?_, ?_⟩
    · rw [hsets]
      exact h1
    · rw [hsets]
      exact h2
    · rw [hsets]
      refine h3 ?_
      rw [hvm, List.length_map] at hlt
      exact hlt
    · rw [hsets, ncard_union h1 hfin, hvm, List.map_map]
      refine congrArg List.sum (List.map_congr_left fun pt hpt => ?_)
      exact (valid_of_mem_splitPoints hpend hpt).pageCount_of_safe (hs pt hpt)

end

/-- The theorem at a machine with two nodes of one gigabyte each, whose ranges meet inside a
segment. -/
theorem setupVmMap_isPartition_iff_twoNodes :
    IsPartition ⟨0, 0x80000⟩ [⟨0x100#64, 0x80000#64⟩] 0x400 0x40000 2
        (setupVmMap ⟨true, [⟨0, 0, 0x20000000⟩, ⟨1, 0x20000000, 0x80000000⟩]⟩ ⟨0, 0x80000⟩
          [⟨0x100#64, 0x80000#64⟩] 0x400 0x40000) ↔
      ∀ pt ∈ splitPointsOf [⟨0, 0, 0x20000000⟩, ⟨1, 0x20000000, 0x80000000⟩] ⟨0, 0x80000⟩
        [⟨0x100#64, 0x80000#64⟩] 0x400 0x40000,
        pt.Safe [⟨0, 0, 0x20000000⟩, ⟨1, 0x20000000, 0x80000000⟩] :=
  setupVmMap_isPartition_iff rfl ⟨by decide, by decide, by decide⟩ (.inl (by decide))

/-- A segment from 1MB to 3MB and a range that ends at 2MB: the pages of the second megabyte are
mapped twice. -/
theorem setupVmMap_not_isPartition_gap :
    ¬ IsPartition ⟨0, 0x300⟩ [⟨0x100#64, 0x300#64⟩] 0 0x400 2
      (setupVmMap ⟨true, [⟨0, 0, 0x200000⟩]⟩ ⟨0, 0x300⟩ [⟨0x100#64, 0x300#64⟩] 0 0x400) := by
  intro h
  have hvm : setupVmMap ⟨true, [⟨0, 0, 0x200000⟩]⟩ ⟨0, 0x300⟩ [⟨0x100#64, 0x300#64⟩] 0 0x400 =
      ⟨[⟨0x100, 0x100000, 0x1ffff8, 0⟩, ⟨0x100, 0x100000, 0x2ffff8, 0⟩], 0x300⟩ := by decide
  have hdisj := h.disjoint
  rw [hvm] at hdisj
  have hpair := (List.pairwise_cons.mp hdisj).1 _ (List.mem_singleton_self _)
  have hpage : pageOf 2 0x100000 = 0x100 := by decide
  exact Set.disjoint_left.mp hpair ⟨0x100000, by decide, by decide, hpage⟩
    ⟨0x100000, by decide, by decide, hpage⟩

end Memtest
