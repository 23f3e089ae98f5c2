import Mathlib.Data.List.TakeWhile
import Mathlib.Data.Set.Card
import Mathlib.Order.CompletePartialOrder
import Mathlib.Order.Interval.Set.Basic
import Memtest.Pmem.Heap
import Memtest.Tests.ChunkSpec

/-!
# When the heaps keep their discipline

The page numbers of `heap_alloc` are machine words: a size close to the largest one has no pages,
and a block with more pages than there are below the end of the segment gets an address above all
memory. A block in page 0 has the address that stands for failure. And a mark stands for what both
heaps have allocated, if they share a segment, so that rewinding one of them takes from the other
one what has been allocated in the meantime. In runs without these calls (`HeapRun.Meets`) all is as
it should be: the pages taken off a segment lie there in the order of the allocations, and a mark is
older than all that lies below it (`HeapRun.Inv`).
-/

namespace Memtest

/-! ### What the calls are to do, and when they do -/

/-- The live blocks overlap neither each other nor the pages that are tested. A block is live
until its heap is rewound to a mark that is older than the block. -/
def HeapRun.LiveDisjoint (r : HeapRun) : Prop :=
  r.carved.Pairwise (fun c d => c.live = true → d.live = true → Disjoint c.block d.block) ∧
    ∀ c ∈ r.carved, c.live = true → ∀ seg ∈ r.state.pmMap, Disjoint c.block seg.pages

/-- What a call is to do, from the run `r` to the run `r'`. An allocation returns 0 and changes
nothing, or an aligned block inside the segment of its heap, whose pages it takes off the top. A
mark changes nothing, and a rewind gives back what has been taken since the mark. -/
def HeapRun.OpSpec (arch : Arch) (r : HeapRun) (op : HeapOp) (r' : HeapRun) : Prop :=
  match op with
  | .alloc heapId size alignExp =>
      let addr := (heapAlloc arch r.state heapId size (2 ^ alignExp)).1
      (addr = 0 ∧ r'.state.pmMap = r.state.pmMap) ∨
        ∃ heap, r.state.heaps heapId = some heap ∧ 2 ^ alignExp ∣ addr ∧
          heap.start * pageSize ≤ addr ∧ addr + size ≤ r.state.stopOf heap.segment * pageSize ∧
            r'.state = r.state.setStop heap.segment (addr / pageSize)
  | .mark _ => r'.state = r.state
  | .rewind markIdx =>
      ∀ m, r.marks[markIdx]? = some m →
        ∀ seg' ∈ r'.state.pmMap, ∀ page ∈ seg'.pages, (∀ seg ∈ r.state.pmMap, page ∉ seg.pages) →
          (∃ c ∈ r.carved, c.owner = m.owner ∧ m.time ≤ c.time ∧ c.start ≤ page ∧ page < c.stop) ∧
            ∀ c ∈ r.carved, c.owner ≠ m.owner → c.live = true → page ∉ c.block

/-- The calls that are as the code takes them to be: the pages of an allocation are a word and no
more than there are below the end of the segment, and its block is not at page 0; and where a heap
is rewound, the other one has no allocation in the same segment below the mark that has not been
given back. -/
def HeapRun.Meets (arch : Arch) (op : HeapOp) (r : HeapRun) : Prop :=
  match op with
  | .alloc heapId size alignExp =>
      ∀ heap ∈ r.state.heaps heapId,
        size + pageSize ≤ 2 ^ arch.bits ∧
          (size + pageSize - 1) / pageSize ≤ r.state.stopOf heap.segment ∧
            (heap.start = 0 → 2 ^ (alignExp - pageShift) ≤
              r.state.stopOf heap.segment - (size + pageSize - 1) / pageSize)
  | .mark _ => True
  | .rewind markIdx =>
      ∀ m ∈ r.marks[markIdx]?, ∀ heap ∈ r.state.heaps m.owner,
        ∀ c ∈ r.carved, c.segment = heap.segment → c.start < m.value → c.owner = m.owner

instance (arch : Arch) (op : HeapOp) (r : HeapRun) : Decidable (r.Meets arch op) :=
  match op with
  | .alloc heapId size alignExp =>
      inferInstanceAs (Decidable (∀ heap ∈ r.state.heaps heapId,
        size + pageSize ≤ 2 ^ arch.bits ∧
          (size + pageSize - 1) / pageSize ≤ r.state.stopOf heap.segment ∧
            (heap.start = 0 → 2 ^ (alignExp - pageShift) ≤
              r.state.stopOf heap.segment - (size + pageSize - 1) / pageSize)))
  | .mark _ => inferInstanceAs (Decidable True)
  | .rewind markIdx =>
      inferInstanceAs (Decidable (∀ m ∈ r.marks[markIdx]?, ∀ heap ∈ r.state.heaps m.owner,
        ∀ c ∈ r.carved, c.segment = heap.segment → c.start < m.value → c.owner = m.owner))

/-! ### The segments -/

/-- `pm_map[i]`. -/
def segmentAt (pmMap : List PageSegment) (i : ℕ) : PageSegment := pmMap.getD i ⟨0, 0⟩

variable {arch : Arch} {s : HeapState} {i j stop : ℕ}

theorem segmentAt_setStop (hi : i < s.pmMap.length) (stop j : ℕ) :
    segmentAt (s.setStop i stop).pmMap j =
      if j = i then { segmentAt s.pmMap i with stop := stop } else segmentAt s.pmMap j := by
  simp only [segmentAt, HeapState.setStop, List.getD_eq_getElem?_getD, List.getElem?_modify]
  by_cases hj : j = i
  · subst hj
    simp [List.getElem?_eq_getElem hi]
  · cases s.pmMap[j]? <;> simp [hj, Ne.symm hj]

theorem stopOf_setStop (hi : i < s.pmMap.length) (stop j : ℕ) :
    (s.setStop i stop).stopOf j = if j = i then stop else s.stopOf j := by
  show (segmentAt (s.setStop i stop).pmMap j).stop = _
  rw [segmentAt_setStop hi]
  split_ifs <;> rfl

theorem length_setStop (s : HeapState) (i stop : ℕ) :
    (s.setStop i stop).pmMap.length = s.pmMap.length := List.length_modify _ _ _

theorem setStop_self (s : HeapState) (i : ℕ) : (s.setStop i (s.stopOf i)).pmMap = s.pmMap := by
  refine List.ext_getElem (length_setStop s i _) fun j hj hj' => ?_
  simp only [HeapState.setStop, List.getElem_modify]
  split_ifs with hij
  · subst hij
    simp [HeapState.stopOf, hj']
  · rfl

theorem exists_segmentAt {pmMap : List PageSegment} {seg : PageSegment} (h : seg ∈ pmMap) :
    ∃ i < pmMap.length, segmentAt pmMap i = seg := by
  obtain ⟨i, hi, rfl⟩ := List.mem_iff_getElem.mp h
  exact ⟨i, hi, by simp [segmentAt, hi]⟩

theorem segmentAt_mem {pmMap : List PageSegment} (hi : i < pmMap.length) :
    segmentAt pmMap i ∈ pmMap := by
  simp [segmentAt, hi]

/-- The pages of different segments of a map are different. -/
theorem disjoint_segmentAt {pmMap : List PageSegment}
    (h : pmMap.Pairwise fun a b => Disjoint a.pages b.pages) (hij : i ≠ j) :
    Disjoint (segmentAt pmMap i).pages (segmentAt pmMap j).pages := by
  have hempty : ∀ k, pmMap.length ≤ k → (segmentAt pmMap k).pages = ∅ := by
    intro k hk
    rw [segmentAt, List.getD_eq_default _ _ hk]
    exact Set.Ico_eq_empty (lt_irrefl 0)
  by_cases hi : i < pmMap.length
  · by_cases hj : j < pmMap.length
    · have hpair := List.pairwise_iff_getElem.mp h
      simp only [segmentAt, List.getD_eq_getElem _ _ hi, List.getD_eq_getElem _ _ hj]
      rcases Nat.lt_or_gt_of_ne hij with hlt | hlt
      · exact hpair i j hi hj hlt
      · exact (hpair j i hj hi hlt).symm
    · rw [hempty j (by omega)]
      exact Set.disjoint_empty _
  · rw [hempty i (by omega)]
    exact Set.empty_disjoint _

/-! ### The arithmetic of `heap_alloc` -/

theorem numPages_eq {size : ℕ} (h : size + pageSize ≤ 2 ^ arch.bits) :
    numPages arch size = (size + pageSize - 1) / pageSize := by
  have hpos : 0 < pageSize := by decide
  rw [numPages, Nat.mod_eq_of_lt (by omega), Nat.shiftRight_eq_div_pow]
  rfl

theorem alignSize_eq (k : ℕ) : ((2 ^ k - 1) >>> pageShift) + 1 = 2 ^ (k - pageShift) := by
  rw [Nat.shiftRight_eq_div_pow]
  rcases Nat.lt_or_ge k pageShift with hk | hk
  · have hlt : 2 ^ k < 2 ^ pageShift := Nat.pow_lt_pow_right (by decide) hk
    have hpos := Nat.two_pow_pos k
    rw [Nat.div_eq_of_lt (by omega), Nat.sub_eq_zero_of_le hk.le, pow_zero, Nat.zero_add]
  · have hsplit : 2 ^ k = 2 ^ (k - pageShift) * 4096 := by
      rw [show 4096 = 2 ^ pageShift by decide, ← pow_add, Nat.sub_add_cancel hk]
    have hpos := Nat.two_pow_pos (k - pageShift)
    rw [hsplit, show 2 ^ pageShift = 4096 by decide]
    omega

/-- The address of a block in pages, for a size that is as the code takes it to be. -/
theorem heapAddr_eq {size k : ℕ} (hsize : size + pageSize ≤ 2 ^ arch.bits) (hk : k < arch.bits)
    (hstop : stop ≤ 2 ^ (arch.bits - pageShift))
    (hpages : (size + pageSize - 1) / pageSize ≤ stop) :
    heapAddr arch stop size (2 ^ k) =
      (stop - (size + pageSize - 1) / pageSize) / 2 ^ (k - pageShift) * 2 ^ (k - pageShift) := by
  have hbits : 2 ^ (arch.bits - pageShift) < 2 ^ arch.bits := by
    refine Nat.pow_lt_pow_right (by decide) ?_
    cases arch <;> decide
  rw [heapAddr, numPages_eq hsize, alignSize_eq]
  generalize (size + pageSize - 1) / pageSize = pages at hpages ⊢
  have hvalue : (stop + 2 ^ arch.bits - pages) % 2 ^ arch.bits = stop - pages := by
    rw [Nat.add_comm stop, Nat.add_sub_assoc hpages, Nat.add_mod_left, Nat.mod_eq_of_lt (by omega)]
  rw [hvalue, roundDown_eq (by omega) (by omega)]

/-! ### The invariant -/

/-- What holds between the calls, for heaps in the map `pm₀` of `heap_init`: what has been taken off
a segment lies between its end and the end it had, without a gap, later allocations in front of
earlier ones, and nothing that is older than a mark lies in front of it. -/
structure HeapRun.Inv (arch : Arch) (pm₀ : List PageSegment) (r : HeapRun) : Prop where
  length : r.state.pmMap.length = pm₀.length
  start : ∀ i, (segmentAt r.state.pmMap i).start = (segmentAt pm₀ i).start
  stop : ∀ i, r.state.stopOf i ≤ (segmentAt pm₀ i).stop
  heap : ∀ heapId heap, r.state.heaps heapId = some heap →
    heap.segment < pm₀.length ∧ (segmentAt pm₀ heap.segment).start ≤ heap.start ∧
      heap.stop = (segmentAt pm₀ heap.segment).stop ∧ heap.stop ≤ 2 ^ (arch.bits - pageShift)
  within : ∀ c ∈ r.carved, (segmentAt pm₀ c.segment).start ≤ c.start ∧
    r.state.stopOf c.segment ≤ c.start ∧ c.start ≤ c.stop ∧ c.stop ≤ (segmentAt pm₀ c.segment).stop
  owner : ∀ c ∈ r.carved, ∃ heap, r.state.heaps c.owner = some heap ∧ heap.segment = c.segment
  block : ∀ c ∈ r.carved, c.live = true → c.start + c.blockPages ≤ c.stop
  ordered : r.carved.Pairwise fun later earlier =>
    later.segment = earlier.segment → later.stop ≤ earlier.start
  cover : ∀ i page, r.state.stopOf i ≤ page → page < (segmentAt pm₀ i).stop →
    ∃ c ∈ r.carved, c.segment = i ∧ c.start ≤ page ∧ page < c.stop
  carved_time : ∀ c ∈ r.carved, c.time < r.time
  mark_time : ∀ m ∈ r.marks, m.time < r.time
  mark : ∀ m ∈ r.marks, ∀ heap, r.state.heaps m.owner = some heap →
    m.value ≤ heap.stop ∧
      ∀ c ∈ r.carved, c.segment = heap.segment → c.time < m.time → m.value ≤ c.start

variable {pm₀ : List PageSegment} {r : HeapRun}

/-- Pages that are taken off a segment are pages of the segment as it was. -/
theorem HeapRun.Inv.mem_pages (h : r.Inv arch pm₀) {c : Carved} (hc : c ∈ r.carved) {page : ℕ}
    (hstart : c.start ≤ page) (hstop : page < c.stop) : page ∈ (segmentAt pm₀ c.segment).pages := by
  obtain ⟨hseg, -, -, hseg'⟩ := h.within c hc
  exact ⟨hseg.trans hstart, hstop.trans_le hseg'⟩

theorem HeapRun.Inv.pages_subset (h : r.Inv arch pm₀) (i : ℕ) :
    (segmentAt r.state.pmMap i).pages ⊆ (segmentAt pm₀ i).pages := by
  rintro page ⟨hlo, hhi⟩
  rw [h.start] at hlo
  exact ⟨hlo, hhi.trans_le (h.stop i)⟩

theorem HeapRun.Inv.mem_block (h : r.Inv arch pm₀) {c : Carved} (hc : c ∈ r.carved)
    (hlive : c.live = true) {page : ℕ} (hpage : page ∈ c.block) : c.start ≤ page ∧ page < c.stop :=
  ⟨hpage.1, hpage.2.trans_le (h.block c hc hlive)⟩

/-- In every run where it holds the live blocks are disjoint. -/
theorem HeapRun.Inv.liveDisjoint
    (hdisj : pm₀.Pairwise fun a b => Disjoint a.pages b.pages) (h : r.Inv arch pm₀) :
    r.LiveDisjoint := by
  constructor
  · refine h.ordered.imp_of_mem fun {c d} hc hd hord hclive hdlive => ?_
    refine Set.disjoint_left.mpr fun page hpc hpd => ?_
    obtain ⟨hclo, hchi⟩ := h.mem_block hc hclive hpc
    obtain ⟨hdlo, hdhi⟩ := h.mem_block hd hdlive hpd
    by_cases hseg : c.segment = d.segment
    · have hle := hord hseg
      omega
    · exact Set.disjoint_left.mp (disjoint_segmentAt hdisj hseg) (h.mem_pages hc hclo hchi)
        (h.mem_pages hd hdlo hdhi)
  · intro c hc hlive seg hseg
    obtain ⟨i, -, rfl⟩ := exists_segmentAt hseg
    refine Set.disjoint_left.mpr fun page hpage hin => ?_
    obtain ⟨hlo, hhi⟩ := h.mem_block hc hlive hpage
    by_cases hsegment : c.segment = i
    · subst hsegment
      have hstop := (h.within c hc).2.1
      have hlt : page < r.state.stopOf c.segment := hin.2
      omega
    · exact Set.disjoint_left.mp (disjoint_segmentAt hdisj hsegment) (h.mem_pages hc hlo hhi)
        (h.pages_subset i hin)

/-! ### The calls keep the invariant -/

/-- What an allocation that is as the code takes it to be does: nothing, or the pages from the
block on are taken off the segment. -/
theorem HeapRun.Inv.alloc_cases {heapId : HeapType} {size k : ℕ} (h : r.Inv arch pm₀)
    (hk : k < arch.bits) (hmeets : r.Meets arch (.alloc heapId size k)) :
    (heapAlloc arch r.state heapId size (2 ^ k) = (0, r.state)) ∨
      ∃ heap page, r.state.heaps heapId = some heap ∧ heap.start ≤ page ∧
        page + (size + pageSize - 1) / pageSize ≤ r.state.stopOf heap.segment ∧
        2 ^ (k - pageShift) ∣ page ∧
        heapAlloc arch r.state heapId size (2 ^ k) =
          ((page * pageSize) % 2 ^ arch.bits, r.state.setStop heap.segment page) ∧
        (page * pageSize < 2 ^ arch.bits ∧ 0 < page ∨
          (page * pageSize) % 2 ^ arch.bits = 0 ∧ page = r.state.stopOf heap.segment) := by
  unfold heapAlloc
  cases hheap : r.state.heaps heapId with
  | none => exact .inl rfl
  | some heap =>
    obtain ⟨hsize, hpages, hzero⟩ := hmeets heap hheap
    obtain ⟨-, -, hstop, hbound⟩ := h.heap heapId heap hheap
    have hle := h.stop heap.segment
    have hbits : 2 ^ arch.bits = 2 ^ (arch.bits - pageShift) * pageSize := by
      rw [show pageSize = 2 ^ pageShift by decide, ← pow_add]
      cases arch <;> rfl
    dsimp only
    rw [heapAddr_eq hsize hk (by omega) hpages]
    generalize (size + pageSize - 1) / pageSize = pages at hpages hzero ⊢
    generalize hpage : (r.state.stopOf heap.segment - pages) / 2 ^ (k - pageShift) *
      2 ^ (k - pageShift) = page
    have hdown : page ≤ r.state.stopOf heap.segment - pages :=
      hpage ▸ Nat.div_mul_le_self _ _
    split_ifs with hlt
    · exact .inl rfl
    refine .inr ⟨heap, page, rfl, by omega, by omega, ⟨_, (hpage.symm.trans (Nat.mul_comm _ _))⟩,
      ?_, ?_⟩
    · rw [Nat.shiftLeft_eq]
      rfl
    · have hpos : 0 < page := by
        rcases Nat.eq_zero_or_pos heap.start with hstart | hstart
        · have hle := Nat.div_mul_le_self (r.state.stopOf heap.segment - pages)
            (2 ^ (k - pageShift))
          have hone : 1 ≤ (r.state.stopOf heap.segment - pages) / 2 ^ (k - pageShift) :=
            (Nat.one_le_div_iff (Nat.two_pow_pos _)).mpr (hzero hstart)
          rw [← hpage]
          exact Nat.mul_pos hone (Nat.two_pow_pos _)
        · omega
      rcases Nat.lt_or_ge page (2 ^ (arch.bits - pageShift)) with hbelow | habove
      · left
        rw [hbits]
        exact ⟨Nat.mul_lt_mul_of_pos_right hbelow (by decide), hpos⟩
      · obtain rfl : page = 2 ^ (arch.bits - pageShift) := by omega
        right
        rw [← hbits]
        exact ⟨Nat.mod_self _, by omega⟩

/-- The invariant depends on the segments alone, not on how the state has come about. -/
theorem HeapRun.Inv.congr_state (h : r.Inv arch pm₀) {state : HeapState} {time : ℕ}
    (hpm : state.pmMap = r.state.pmMap) (hheaps : state.heaps = r.state.heaps)
    (htime : r.time ≤ time) : ({ r with state := state, time := time } : HeapRun).Inv arch pm₀ := by
  obtain ⟨pmMap, heaps⟩ := state
  subst hpm hheaps
  exact ⟨h.length, h.start, h.stop, h.heap, h.within, h.owner, h.block, h.ordered, h.cover,
    fun c hc => (h.carved_time c hc).trans_le htime,
    fun m hm => (h.mark_time m hm).trans_le htime, h.mark⟩

/-- Pages are taken off the end of a segment for a block at their start. -/
theorem HeapRun.Inv.carve {heapId : HeapType} {heap : Heap} {page pages : ℕ} (h : r.Inv arch pm₀)
    (hheap : r.state.heaps heapId = some heap) (hstart : heap.start ≤ page)
    (hfit : page + pages ≤ r.state.stopOf heap.segment) :
    ({ r with
      state := r.state.setStop heap.segment page
      carved :=
        { owner := heapId
          segment := heap.segment
          start := page
          stop := r.state.stopOf heap.segment
          blockPages := pages
          time := r.time
          live := true } :: r.carved
      time := r.time + 1 } : HeapRun).Inv arch pm₀ := by
  obtain ⟨hsegment, hsegstart, hsegstop, -⟩ := h.heap heapId heap hheap
  have hin : heap.segment < r.state.pmMap.length := h.length ▸ hsegment
  have hstop := h.stop heap.segment
  have hstops : ∀ i, (r.state.setStop heap.segment page).stopOf i ≤ r.state.stopOf i := by
    intro i
    rw [stopOf_setStop hin]
    split_ifs with hi
    · rw [hi]
      omega
    · exact le_rfl
  constructor
  case length => exact (length_setStop _ _ _).trans h.length
  case start =>
    intro i
    rw [← h.start i, segmentAt_setStop hin]
    split_ifs with hi
    · rw [hi]
    · rfl
  case stop => exact fun i => (hstops i).trans (h.stop i)
  case heap => exact h.heap
  case within =>
    intro c hc
    rcases List.mem_cons.mp hc with rfl | hc
    · refine ⟨hsegstart.trans hstart, ?_, by dsimp only; omega, hstop⟩
      rw [stopOf_setStop hin, if_pos rfl]
    · obtain ⟨hlo, hle, hrest⟩ := h.within c hc
      exact ⟨hlo, (hstops c.segment).trans hle, hrest⟩
  case owner =>
    intro c hc
    rcases List.mem_cons.mp hc with rfl | hc
    · exact ⟨heap, hheap, rfl⟩
    · exact h.owner c hc
  case block =>
    intro c hc hlive
    rcases List.mem_cons.mp hc with rfl | hc
    · exact hfit
    · exact h.block c hc hlive
  case ordered =>
    refine List.pairwise_cons.mpr ⟨fun c hc hseg => ?_, h.ordered⟩
    have hle := (h.within c hc).2.1
    rw [← hseg] at hle
    exact hle
  case cover =>
    intro i x hlo hhi
    rw [stopOf_setStop hin] at hlo
    by_cases hx : r.state.stopOf i ≤ x
    · obtain ⟨c, hc, hcover⟩ := h.cover i x hx hhi
      exact ⟨c, List.mem_cons_of_mem _ hc, hcover⟩
    · split_ifs at hlo with hi
      · subst hi
        exact ⟨_, List.mem_cons_self, rfl, hlo, by dsimp only; omega⟩
      · omega
  case carved_time =>
    intro c hc
    rcases List.mem_cons.mp hc with rfl | hc
    · exact Nat.lt_succ_self _
    · exact (h.carved_time c hc).trans (Nat.lt_succ_self _)
  case mark_time => exact fun m hm => (h.mark_time m hm).trans (Nat.lt_succ_self _)
  case mark =>
    intro m hm heap' hheap'
    obtain ⟨hvalue, hall⟩ := h.mark m hm heap' hheap'
    refine ⟨hvalue, fun c hc hseg htime => ?_⟩
    rcases List.mem_cons.mp hc with rfl | hc
    · -- No mark is younger than the block.
      exact absurd htime (h.mark_time m hm).not_gt
    · exact hall c hc hseg htime

theorem HeapRun.Inv.alloc {heapId : HeapType} {size k : ℕ} {r' : HeapRun} (h : r.Inv arch pm₀)
    (hmeets : r.Meets arch (.alloc heapId size k))
    (hstep : heapStep arch (.alloc heapId size k) r = some r') :
    r'.Inv arch pm₀ ∧ r.OpSpec arch (.alloc heapId size k) r' := by
  have hguard : size < 2 ^ arch.bits ∧ k < arch.bits := by
    by_contra hnot
    rw [heapStep, if_neg hnot] at hstep
    cases hstep
  rw [heapStep, if_pos hguard] at hstep
  rcases h.alloc_cases hguard.2 hmeets with
    hnone | ⟨heap, page, hheap, hstart, hfit, hdvd, halloc, haddr⟩
  · rw [hnone] at hstep
    obtain rfl := Option.some.inj hstep
    rw [HeapRun.OpSpec, hnone]
    exact ⟨h.congr_state rfl rfl (Nat.le_succ _), .inl ⟨rfl, rfl⟩⟩
  rcases haddr with ⟨hlt, hpos⟩ | ⟨hzero, rfl⟩
  swap
  · rw [halloc, hzero] at hstep
    obtain rfl := Option.some.inj hstep
    rw [HeapRun.OpSpec, halloc, hzero]
    exact ⟨h.congr_state (setStop_self _ _) rfl (Nat.le_succ _), .inl ⟨rfl, setStop_self _ _⟩⟩
  rw [Nat.mod_eq_of_lt hlt] at halloc
  rw [halloc] at hstep
  obtain rfl := Option.some.inj hstep
  have hne : page * pageSize ≠ 0 := (Nat.mul_pos hpos (by decide)).ne'
  have hin : heap.segment < r.state.pmMap.length := h.length ▸ (h.heap heapId heap hheap).1
  have hcarve := h.carve hheap hstart hfit
  rw [HeapRun.OpSpec, halloc]
  refine ⟨?_, .inr ⟨heap, hheap, ?_, ?_, ?_, ?_⟩⟩
  · dsimp only
    rw [if_neg hne, HeapRun.allocated, hheap]
    dsimp only
    rw [stopOf_setStop hin, if_pos rfl]
    exact hcarve
  · have hpow : 2 ^ k ∣ 2 ^ (k - pageShift) * pageSize := by
      rw [show pageSize = 2 ^ pageShift by decide, ← pow_add]
      exact Nat.pow_dvd_pow 2 (by omega)
    exact hpow.trans (Nat.mul_dvd_mul_right hdvd _)
  · exact Nat.mul_le_mul_right _ hstart
  · have hsize : size ≤ (size + pageSize - 1) / pageSize * pageSize := by
      have hround := Nat.div_add_mod (size + pageSize - 1) pageSize
      have hmod := Nat.mod_lt (size + pageSize - 1) (show 0 < pageSize by decide)
      rw [Nat.mul_comm] at hround
      omega
    calc page * pageSize + size
        ≤ page * pageSize + (size + pageSize - 1) / pageSize * pageSize := by omega
      _ = (page + (size + pageSize - 1) / pageSize) * pageSize := (Nat.add_mul _ _ _).symm
      _ ≤ r.state.stopOf heap.segment * pageSize := Nat.mul_le_mul_right _ hfit
  · rw [Nat.mul_div_cancel _ (by decide)]

theorem HeapRun.Inv.markOp {heapId : HeapType} {r' : HeapRun} (h : r.Inv arch pm₀)
    (hstep : heapStep arch (.mark heapId) r = some r') :
    r'.Inv arch pm₀ ∧ r.OpSpec arch (.mark heapId) r' := by
  obtain rfl := Option.some.inj hstep
  refine ⟨⟨h.length, h.start, h.stop, h.heap, h.within, h.owner, h.block, h.ordered, h.cover,
    fun c hc => (h.carved_time c hc).trans (Nat.lt_succ_self _), fun m hm => ?_,
    fun m hm heap hheap => ?_⟩, rfl⟩
  · rcases List.mem_append.mp hm with hm | hm
    · exact (h.mark_time m hm).trans (Nat.lt_succ_self _)
    · rw [List.mem_singleton.mp hm]
      exact Nat.lt_succ_self _
  · rcases List.mem_append.mp hm with hm | hm
    · exact h.mark m hm heap hheap
    · rw [List.mem_singleton.mp hm] at hheap ⊢
      dsimp only at hheap ⊢
      rw [heapMark, hheap]
      dsimp only
      refine ⟨(h.heap heapId heap hheap).2.2.1 ▸ h.stop heap.segment, fun c hc hseg _ => ?_⟩
      rw [← hseg]
      exact (h.within c hc).2.1

/-! ### Rewinding -/

/-- What is left of an allocation lies within it; a live block is left as it was. -/
theorem Carved.rewound_eq_some {m : HeapMark} {segment : ℕ} {c c' : Carved}
    (h : c.rewound m segment = some c') :
    c'.owner = c.owner ∧ c'.segment = c.segment ∧ c'.stop = c.stop ∧ c'.time = c.time ∧
      c'.blockPages = c.blockPages ∧ c.start ≤ c'.start ∧ c'.start ≤ max c.start c.stop ∧
        (c.segment = segment → m.value ≤ c'.start) ∧
          (c'.live = true → c.live = true ∧ c'.start = c.start) := by
  unfold Carved.rewound at h
  dsimp only at h
  split_ifs at h with hin hgone
  · obtain rfl := Option.some.inj h
    dsimp only
    refine ⟨rfl, rfl, rfl, rfl, rfl, hin.2.le, by omega, fun _ => le_rfl, by simp⟩
  · obtain rfl := Option.some.inj h
    refine ⟨rfl, rfl, rfl, rfl, rfl, le_rfl, le_max_left _ _, fun hseg => ?_, fun hlive => ?_⟩
    · by_contra hlt
      exact hin ⟨hseg, not_le.mp hlt⟩
    · exact ⟨(Bool.and_eq_true_iff.mp hlive).1, rfl⟩

/-- A page that is not given back stays with its allocation. -/
theorem Carved.exists_rewound {m : HeapMark} {segment page : ℕ} {c : Carved}
    (hstart : c.start ≤ page) (hstop : page < c.stop)
    (hpage : c.segment = segment → m.value ≤ page) :
    ∃ c', c.rewound m segment = some c' ∧ c'.start ≤ page := by
  unfold Carved.rewound
  dsimp only
  split_ifs with hin hgone
  · have hle := hpage hin.1
    omega
  · exact ⟨_, rfl, hpage hin.1⟩
  · exact ⟨_, rfl, hstart⟩

/-- The end of the segment is set back to the mark, if it lies in front of it. -/
theorem HeapRun.Inv.segmentAt_heapRewind {m : HeapMark} {heap : Heap} (h : r.Inv arch pm₀)
    (hm : m ∈ r.marks) (hheap : r.state.heaps m.owner = some heap) (j : ℕ) :
    segmentAt (heapRewind r.state m.owner m.value).pmMap j =
      if j = heap.segment then
        { segmentAt r.state.pmMap j with stop := max (r.state.stopOf j) m.value }
      else segmentAt r.state.pmMap j := by
  have hin : heap.segment < r.state.pmMap.length := h.length ▸ (h.heap m.owner heap hheap).1
  have hvalue := (h.mark m hm heap hheap).1
  unfold heapRewind
  rw [hheap]
  dsimp only
  split_ifs with hlt hj hj
  · subst hj
    rw [segmentAt_setStop hin, if_pos rfl, max_eq_right hlt.1.le]
  · rw [segmentAt_setStop hin, if_neg hj]
  · subst hj
    rw [max_eq_left (by omega)]
    rfl
  · rfl

theorem heapRewind_heaps (s : HeapState) (heapId : HeapType) (mark : ℕ) :
    (heapRewind s heapId mark).heaps = s.heaps := by
  unfold heapRewind
  cases s.heaps heapId with
  | none => rfl
  | some heap =>
    dsimp only
    split_ifs <;> rfl

theorem heapRewind_length (s : HeapState) (heapId : HeapType) (mark : ℕ) :
    (heapRewind s heapId mark).pmMap.length = s.pmMap.length := by
  unfold heapRewind
  cases s.heaps heapId with
  | none => rfl
  | some heap =>
    dsimp only
    split_ifs
    · exact length_setStop _ _ _
    · rfl

/-- The invariant after a rewind of a heap that has a segment. -/
theorem HeapRun.Inv.rewound {m : HeapMark} {heap : Heap} (h : r.Inv arch pm₀) (hm : m ∈ r.marks)
    (hheap : r.state.heaps m.owner = some heap) :
    ({ r with
      state := heapRewind r.state m.owner m.value
      carved := r.carved.filterMap (Carved.rewound m heap.segment)
      time := r.time + 1 } : HeapRun).Inv arch pm₀ := by
  have hvalue := (h.mark m hm heap hheap).1
  have hheapstop := (h.heap m.owner heap hheap).2.2.1
  have hseg := h.segmentAt_heapRewind hm hheap
  have hstopOf : ∀ j, (heapRewind r.state m.owner m.value).stopOf j =
      if j = heap.segment then max (r.state.stopOf j) m.value else r.state.stopOf j := by
    intro j
    show (segmentAt _ j).stop = _
    rw [hseg]
    split_ifs <;> rfl
  have hold : ∀ c' ∈ r.carved.filterMap (Carved.rewound m heap.segment),
      ∃ c ∈ r.carved, c.rewound m heap.segment = some c' := fun c' hc' => List.mem_filterMap.mp hc'
  constructor
  case length => exact (heapRewind_length _ _ _).trans h.length
  case start =>
    intro i
    rw [← h.start i, hseg]
    split_ifs <;> rfl
  case stop =>
    intro i
    rw [hstopOf]
    split_ifs with hi
    · subst hi
      exact max_le (h.stop _) (hvalue.trans_eq hheapstop)
    · exact h.stop i
  case heap =>
    rw [heapRewind_heaps]
    exact h.heap
  case within =>
    intro c' hc'
    obtain ⟨c, hc, hrew⟩ := hold c' hc'
    obtain ⟨-, hsegment, hstop, -, -, hstart, hle, hmark, -⟩ := Carved.rewound_eq_some hrew
    obtain ⟨hlo, hfirst, horder, hhi⟩ := h.within c hc
    rw [hsegment, hstop, hstopOf]
    refine ⟨hlo.trans hstart, ?_, by omega, hhi⟩
    split_ifs with hi
    · exact max_le (hfirst.trans hstart) (hmark hi)
    · exact hfirst.trans hstart
  case owner =>
    intro c' hc'
    obtain ⟨c, hc, hrew⟩ := hold c' hc'
    obtain ⟨howner, hsegment, -⟩ := Carved.rewound_eq_some hrew
    rw [howner, hsegment, heapRewind_heaps]
    exact h.owner c hc
  case block =>
    intro c' hc' hlive
    obtain ⟨c, hc, hrew⟩ := hold c' hc'
    obtain ⟨-, -, hstop, -, hpages, -, -, -, hblock⟩ := Carved.rewound_eq_some hrew
    obtain ⟨hclive, hstart⟩ := hblock hlive
    rw [hstart, hpages, hstop]
    exact h.block c hc hclive
  case ordered =>
    refine h.ordered.filterMap _ fun c d hord c' hc' d' hd' hsegments => ?_
    obtain ⟨-, hsegment, hstop, -⟩ := Carved.rewound_eq_some hc'
    obtain ⟨-, hsegment', -, -, -, hstart, -⟩ := Carved.rewound_eq_some hd'
    rw [hsegment, hsegment'] at hsegments
    rw [hstop]
    exact (hord hsegments).trans hstart
  case cover =>
    intro i page hlo hhi
    rw [hstopOf] at hlo
    have hfirst : r.state.stopOf i ≤ page ∧ (i = heap.segment → m.value ≤ page) := by
      split_ifs at hlo with hi
      · exact ⟨(le_max_left _ _).trans hlo, fun _ => (le_max_right _ _).trans hlo⟩
      · exact ⟨hlo, fun hi' => absurd hi' hi⟩
    obtain ⟨c, hc, rfl, hstart, hstop⟩ := h.cover i page hfirst.1 hhi
    obtain ⟨c', hc', hstart'⟩ := Carved.exists_rewound hstart hstop hfirst.2
    obtain ⟨-, hsegment, hstop', -⟩ := Carved.rewound_eq_some hc'
    exact ⟨c', List.mem_filterMap.mpr ⟨c, hc, hc'⟩, hsegment, hstart', hstop'.symm ▸ hstop⟩
  case carved_time =>
    intro c' hc'
    obtain ⟨c, hc, hrew⟩ := hold c' hc'
    rw [(Carved.rewound_eq_some hrew).2.2.2.1]
    exact (h.carved_time c hc).trans (Nat.lt_succ_self _)
  case mark_time => exact fun m hm => (h.mark_time m hm).trans (Nat.lt_succ_self _)
  case mark =>
    intro m' hm' heap' hheap'
    rw [heapRewind_heaps] at hheap'
    obtain ⟨hvalue', hall⟩ := h.mark m' hm' heap' hheap'
    refine ⟨hvalue', fun c' hc' hsegment' htime' => ?_⟩
    obtain ⟨c, hc, hrew⟩ := hold c' hc'
    obtain ⟨-, hsegment, -, htime, -, hstart, -⟩ := Carved.rewound_eq_some hrew
    rw [hsegment] at hsegment'
    rw [htime] at htime'
    exact (hall c hc hsegment' htime').trans hstart

theorem HeapRun.Inv.rewindOp {markIdx : ℕ} {r' : HeapRun}
    (hdisj : pm₀.Pairwise fun a b => Disjoint a.pages b.pages) (h : r.Inv arch pm₀)
    (hmeets : r.Meets arch (.rewind markIdx))
    (hstep : heapStep arch (.rewind markIdx) r = some r') :
    r'.Inv arch pm₀ ∧ r.OpSpec arch (.rewind markIdx) r' := by
  unfold heapStep at hstep
  obtain ⟨m, hidx, rfl⟩ := Option.map_eq_some_iff.mp hstep
  have hm : m ∈ r.marks := List.mem_of_getElem? hidx
  cases hheap : r.state.heaps m.owner with
  | none =>
    have hstate : heapRewind r.state m.owner m.value = r.state := by rw [heapRewind, hheap]
    refine ⟨?_, ?_⟩
    · rw [hstate]
      exact h.congr_state rfl rfl (Nat.le_succ _)
    · rintro m' hm' seg' hseg' page hpage hnot
      obtain rfl := Option.some.inj (hidx.symm.trans hm')
      dsimp only at hseg'
      rw [hstate] at hseg'
      exact absurd hpage (hnot seg' hseg')
  | some heap =>
    refine ⟨h.rewound hm hheap, ?_⟩
    rintro m' hm' seg' hseg' page hpage hnot
    obtain rfl := Option.some.inj (hidx.symm.trans hm')
    dsimp only at hseg'
    -- The page lies between the end of the segment and the mark.
    obtain ⟨j, hj, rfl⟩ := exists_segmentAt hseg'
    rw [heapRewind_length] at hj
    rw [h.segmentAt_heapRewind hm hheap] at hpage
    have hnot' := hnot _ (segmentAt_mem hj)
    split_ifs at hpage with hsegment
    swap
    · exact absurd hpage hnot'
    subst hsegment
    obtain ⟨hlo, hhi⟩ := hpage
    have hstop : r.state.stopOf heap.segment ≤ page := not_lt.mp fun hlt => hnot' ⟨hlo, hlt⟩
    have hbelow : page < m.value := (lt_max_iff.mp hhi).resolve_left hstop.not_gt
    obtain ⟨hvalue, hall⟩ := h.mark m hm heap hheap
    have hstop₀ : page < (segmentAt pm₀ heap.segment).stop := by
      rw [← (h.heap m.owner heap hheap).2.2.1]
      exact hbelow.trans_le hvalue
    obtain ⟨c, hc, hcseg, hcstart, hcstop⟩ := h.cover heap.segment page hstop hstop₀
    have howner := hmeets m hidx heap hheap c hc hcseg (hcstart.trans_lt hbelow)
    refine ⟨⟨c, hc, howner, ?_, hcstart, hcstop⟩, fun d hd hne hlive hblock => ?_⟩
    · by_contra hlt
      have hle := hall c hc hcseg (not_le.mp hlt)
      omega
    · obtain ⟨hdlo, hdhi⟩ := h.mem_block hd hlive hblock
      by_cases hdseg : d.segment = heap.segment
      · exact hne (hmeets m hidx heap hheap d hd hdseg (hdlo.trans_lt hbelow))
      · refine Set.disjoint_left.mp (disjoint_segmentAt hdisj hdseg) (h.mem_pages hd hdlo hdhi) ?_
        rw [← hcseg]
        exact h.mem_pages hc hcstart hcstop

/-- A call that is as the code takes it to be does what it is to do. -/
theorem HeapRun.Inv.step {op : HeapOp} {r' : HeapRun}
    (hdisj : pm₀.Pairwise fun a b => Disjoint a.pages b.pages) (h : r.Inv arch pm₀)
    (hmeets : r.Meets arch op) (hstep : heapStep arch op r = some r') :
    r'.Inv arch pm₀ ∧ r.OpSpec arch op r' := by
  cases op with
  | alloc heapId size k => exact h.alloc hmeets hstep
  | mark heapId => exact h.markOp hstep
  | rewind markIdx => exact h.rewindOp hdisj hmeets hstep

/-! ### `heap_init` -/

/-- A map whose segments have no page in common, with page numbers of addresses. The order does
not matter, and a segment may be empty. -/
structure PmMapOk (pmMap : List PageSegment) : Prop where
  disjoint : pmMap.Pairwise fun a b => Disjoint a.pages b.pages
  stop_le : ∀ seg ∈ pmMap, seg.stop ≤ 2 ^ 52

theorem mem_splitAt {limit room : ℕ} {pmMap : List PageSegment} {seg : PageSegment}
    (h : seg ∈ splitAt limit room pmMap) :
    ∃ seg' ∈ pmMap, seg.pages ⊆ seg'.pages ∧ seg.stop ≤ seg'.stop := by
  induction pmMap with
  | nil => cases h
  | cons first pmMap ih =>
    rw [splitAt] at h
    split_ifs at h with hacross hroom
    · simp only [List.mem_cons] at h
      rcases h with rfl | rfl | h
      · exact ⟨first, List.mem_cons_self, Set.Ico_subset_Ico_right hacross.2.le, hacross.2.le⟩
      · exact ⟨first, List.mem_cons_self, Set.Ico_subset_Ico_left hacross.1.le, le_rfl⟩
      · exact ⟨seg, List.mem_cons_of_mem _ h, subset_rfl, le_rfl⟩
    · exact ⟨seg, h, subset_rfl, le_rfl⟩
    · rcases List.mem_cons.mp h with rfl | h
      · exact ⟨seg, List.mem_cons_self, subset_rfl, le_rfl⟩
      · obtain ⟨seg', hseg', hsub⟩ := ih h
        exact ⟨seg', List.mem_cons_of_mem _ hseg', hsub⟩

theorem pairwise_splitAt {limit room : ℕ} {pmMap : List PageSegment}
    (h : pmMap.Pairwise fun a b => Disjoint a.pages b.pages) :
    (splitAt limit room pmMap).Pairwise fun a b => Disjoint a.pages b.pages := by
  induction pmMap with
  | nil => exact .nil
  | cons first pmMap ih =>
    obtain ⟨hfirst, hrest⟩ := List.pairwise_cons.mp h
    rw [splitAt]
    split_ifs with hacross hroom
    · refine List.pairwise_cons.mpr ⟨fun seg hseg => ?_, List.pairwise_cons.mpr ⟨?_, hrest⟩⟩
      · rcases List.mem_cons.mp hseg with rfl | hseg
        · exact Set.disjoint_left.mpr fun page hlo hhi => hhi.1.not_gt hlo.2
        · exact (hfirst seg hseg).mono_left (Set.Ico_subset_Ico_right hacross.2.le)
      · exact fun seg hseg => (hfirst seg hseg).mono_left (Set.Ico_subset_Ico_left hacross.1.le)
    · exact h
    · refine List.pairwise_cons.mpr ⟨fun seg hseg => ?_, ih hrest⟩
      obtain ⟨seg', hseg', hsub, -⟩ := mem_splitAt hseg
      exact (hfirst seg' hseg').mono_right hsub

theorem pmMapOk_heapPmMap (build : SmpBuild) {pmMap : List PageSegment} (h : PmMapOk pmMap) :
    PmMapOk (heapPmMap build pmMap) := by
  rcases build with arch | _ | _
  · exact h
  · exact h
  · refine ⟨pairwise_splitAt h.disjoint, fun seg hseg => ?_⟩
    obtain ⟨seg', hseg', -, hle⟩ := mem_splitAt hseg
    exact hle.trans (h.stop_le seg' hseg')

/-- A heap that `heap_init` may find in a map. -/
def HeapIn (pmMap : List PageSegment) (limit : ℕ) (heap : Heap) : Prop :=
  ∃ seg, pmMap[heap.segment]? = some seg ∧ seg.start ≤ heap.start ∧ heap.stop = seg.stop ∧
    seg.stop ≤ limit

theorem heapIn_heapInitStep {build : SmpBuild} {low programStart programEnd limit : ℕ}
    {pmMap : List PageSegment} {scan : HeapScan} {seg : PageSegment} {i : ℕ}
    (hprogram : programStart ≤ programEnd) (hseg : pmMap[i]? = some seg) (hlimit : seg.stop ≤ limit)
    (h : ∀ heapId heap, scan.heaps heapId = some heap → HeapIn pmMap limit heap) :
    ∀ heapId heap, (heapInitStep build low programStart programEnd scan seg i).heaps heapId =
      some heap → HeapIn pmMap limit heap := by
  intro heapId heap hheap
  unfold heapInitStep at hheap
  generalize hstart : (if seg.start ≤ programStart ∧ programEnd ≤ seg.stop then programEnd
    else seg.start) = start at hheap
  have hle : seg.start ≤ start := by
    rw [← hstart]
    split_ifs with hin
    · omega
    · exact le_rfl
  have hnew : HeapIn pmMap limit ⟨i, start, seg.stop⟩ := ⟨seg, hseg, hle, rfl, hlimit⟩
  dsimp only at hheap
  by_cases hsize : scan.maxSegmentSize ≤
      (seg.stop + 2 ^ build.arch.bits - start) % 2 ^ build.arch.bits
  · rw [if_pos hsize] at hheap
    cases heapId with
    | lm1 =>
      dsimp only at hheap
      split_ifs at hheap with hlow
      · exact Option.some.inj hheap ▸ hnew
      · exact h .lm1 heap hheap
    | hm1 => exact Option.some.inj hheap ▸ hnew
  · rw [if_neg hsize] at hheap
    exact h heapId heap hheap

theorem heapIn_heapInit (build : SmpBuild) (pmMap : List PageSegment) (startAddr endAddr : ℕ) :
    ∀ heapId heap, (heapInit build pmMap startAddr endAddr).heaps heapId = some heap →
      HeapIn (heapPmMap build pmMap) (heapLimit build pmMap) heap := by
  have hscan : ∀ (l : List (PageSegment × ℕ)) (scan : HeapScan),
      (∀ x ∈ l, (heapPmMap build pmMap)[x.2]? = some x.1 ∧ x.1.stop ≤ heapLimit build pmMap) →
      (∀ heapId heap, scan.heaps heapId = some heap →
        HeapIn (heapPmMap build pmMap) (heapLimit build pmMap) heap) →
      ∀ heapId heap, (l.foldl (fun s (seg, i) => heapInitStep build (lowMemoryHeap build pmMap)
        (startAddr >>> pageShift)
        (startAddr >>> pageShift + numPages build.arch (endAddr - startAddr)) s seg i)
        scan).heaps heapId = some heap →
          HeapIn (heapPmMap build pmMap) (heapLimit build pmMap) heap := by
    intro l
    induction l with
    | nil => exact fun _ _ h => h
    | cons x l ih =>
      intro scan hl h
      obtain ⟨hx, hrest⟩ := List.forall_mem_cons.mp hl
      exact ih _ hrest (heapIn_heapInitStep (Nat.le_add_right _ _) hx.1 hx.2 h)
  have hmem : ∀ x ∈ ((heapPmMap build pmMap).takeWhile fun seg =>
      decide (seg.stop ≤ heapLimit build pmMap)).zipIdx,
      (heapPmMap build pmMap)[x.2]? = some x.1 ∧ x.1.stop ≤ heapLimit build pmMap := by
    intro x hx
    have hidx := List.mem_zipIdx_iff_getElem?.mp hx
    have hlow := List.mem_takeWhile_imp (List.mem_of_getElem? hidx)
    obtain ⟨rest, hrest⟩ := List.takeWhile_prefix
      (l := heapPmMap build pmMap) fun seg => decide (seg.stop ≤ heapLimit build pmMap)
    refine ⟨?_, of_decide_eq_true hlow⟩
    rw [← hrest, List.getElem?_append_left (List.getElem?_eq_some_iff.mp hidx).1]
    exact hidx
  have hfound := hscan _ ⟨0, fun _ => none⟩ hmem (by simp)
  rcases build with arch | _ | _
  · exact hfound
  · exact hfound
  · intro heapId heap hheap
    rcases Option.or_eq_some_iff.mp hheap with hheap | ⟨-, hheap⟩
    · exact hfound heapId heap hheap
    · exact hfound .hm1 heap hheap

/-- The end of a segment that is a heap's is an address of the build. -/
theorem stop_le_of_heapLimit {build : SmpBuild} {pmMap : List PageSegment} (h : PmMapOk pmMap)
    {seg : PageSegment} (hseg : seg ∈ heapPmMap build pmMap)
    (hlimit : seg.stop ≤ heapLimit build pmMap) :
    seg.stop ≤ 2 ^ (build.arch.bits - pageShift) := by
  rcases build with arch | _ | _
  · have hlimit : seg.stop ≤ 0x100000 := hlimit
    refine hlimit.trans ?_
    cases arch <;> decide
  · have hlimit : seg.stop ≤ 0x100000 := hlimit
    exact hlimit.trans (by decide)
  · exact (pmMapOk_heapPmMap .aarch64 h).stop_le seg hseg

theorem inv_heapRunInit (build : SmpBuild) {pmMap : List PageSegment} (startAddr endAddr : ℕ)
    (h : PmMapOk pmMap) :
    (heapRunInit build pmMap startAddr endAddr).Inv build.arch (heapPmMap build pmMap) where
  length := rfl
  start _ := rfl
  stop _ := le_rfl
  heap heapId heap hheap := by
    obtain ⟨seg, hseg, hstart, hstop, hlimit⟩ :=
      heapIn_heapInit build pmMap startAddr endAddr heapId heap hheap
    obtain ⟨hlt, hget⟩ := List.getElem?_eq_some_iff.mp hseg
    have hat : segmentAt (heapPmMap build pmMap) heap.segment = seg := by
      rw [segmentAt, List.getD_eq_getElem _ _ hlt, hget]
    rw [hat]
    refine ⟨hlt, hstart, hstop, ?_⟩
    rw [hstop]
    exact stop_le_of_heapLimit h (List.mem_of_getElem? hseg) hlimit
  within _ hc := by cases hc
  owner _ hc := by cases hc
  block _ hc := by cases hc
  ordered := .nil
  cover i page hlo hhi := absurd hlo hhi.not_ge
  carved_time _ hc := by cases hc
  mark_time _ hm := by cases hm
  mark _ hm := by cases hm

/-! ### Runs -/

/-- **The heaps.** In every run of calls that are as the code takes them to be the live blocks are
disjoint, and every such call does what it is to do.

A run has calls on both heaps in any order, with marks and rewinds between them, and marks may be
rewound to out of order. The map is the one `pmem_init` has left; the heaps may lie in one segment
of it or in two. The second half is about a further call from the state the run leaves, which is
what makes the condition on the calls one step's own. -/
theorem heap_discipline (build : SmpBuild) (pmMap : List PageSegment) (startAddr endAddr : ℕ)
    (ops : List HeapOp) (r : HeapRun) (hok : PmMapOk pmMap)
    (hrun : Executions.exec (heapStep build.arch) ops
      (heapRunInit build pmMap startAddr endAddr) = some r)
    (hmeets : Executions.Always (heapStep build.arch) (fun op r => r.Meets build.arch op) ops
      (heapRunInit build pmMap startAddr endAddr)) :
    r.LiveDisjoint ∧
      ∀ op r', r.Meets build.arch op → heapStep build.arch op r = some r' →
        r.OpSpec build.arch op r' := by
  have hdisj := (pmMapOk_heapPmMap build hok).disjoint
  have hinv : r.Inv build.arch (heapPmMap build pmMap) :=
    Executions.exec_invariant (I := fun r => r.Inv build.arch (heapPmMap build pmMap))
      (fun op s t hop hs hstep => (hs.step hdisj hop hstep).1) hmeets
      (inv_heapRunInit build startAddr endAddr hok) hrun
  exact ⟨hinv.liveDisjoint hdisj, fun op r' hop hstep => (hinv.step hdisj hop hstep).2⟩

/-- The memory below 640 KB, and 3 MB from 1 MB on. -/
def smallPmMap : List PageSegment := [⟨0, 0x9f⟩, ⟨0x100, 0x400⟩]

theorem pmMapOk_smallPmMap : PmMapOk smallPmMap where
  disjoint := by
    refine List.pairwise_pair.mpr (Set.disjoint_left.mpr fun page hlo hhi => ?_)
    have hlt : page < 0x9f := hlo.2
    have hge : 0x100 ≤ page := hhi.1
    omega
  stop_le := by decide

/-- Two blocks on each of the heaps, one of which is given back again. -/
theorem heap_discipline_smallPmMap :
    ∃ r, Executions.exec (heapStep .b64)
        [.alloc .lm1 100 6, .mark .lm1, .alloc .lm1 8192 13, .alloc .hm1 5000 12, .rewind 0]
        (heapRunInit (.x86 .b64) smallPmMap 0x100000 0x180000) = some r ∧
      r.LiveDisjoint ∧
        ∀ op r', r.Meets .b64 op → heapStep .b64 op r = some r' → r.OpSpec .b64 op r' :=
  ⟨_, rfl, heap_discipline (.x86 .b64) smallPmMap 0x100000 0x180000
    [.alloc .lm1 100 6, .mark .lm1, .alloc .lm1 8192 13, .alloc .hm1 5000 12, .rewind 0] _
    pmMapOk_smallPmMap rfl (by decide)⟩

/-- A block of 1 MB does not fit below 640 KB, and gets an address at the end of the address
space. -/
theorem not_opSpec_smallPmMap :
    PmMapOk smallPmMap ∧
      ∃ r, heapStep .b64 (.alloc .lm1 0x100000 12)
          (heapRunInit (.x86 .b64) smallPmMap 0x100000 0x180000) = some r ∧
        ¬(heapRunInit (.x86 .b64) smallPmMap 0x100000 0x180000).OpSpec .b64
          (.alloc .lm1 0x100000 12) r := by
  refine ⟨pmMapOk_smallPmMap, _, rfl, ?_⟩
  have haddr : (heapAlloc .b64 (heapRunInit (.x86 .b64) smallPmMap 0x100000 0x180000).state .lm1
      0x100000 (2 ^ 12)).1 = 2 ^ 64 - 97 * 4096 := by decide
  rintro (⟨hzero, -⟩ | ⟨heap, hheap, -, -, hfit, -⟩)
  · rw [haddr] at hzero
    exact absurd hzero (by decide)
  · rw [haddr] at hfit
    have hsome : (heapRunInit (.x86 .b64) smallPmMap 0x100000 0x180000).state.heaps .lm1 =
        some ⟨0, 0, 0x9f⟩ := by decide
    obtain rfl := Option.some.inj (hsome.symm.trans hheap)
    exact absurd hfit (by decide)

end Memtest
