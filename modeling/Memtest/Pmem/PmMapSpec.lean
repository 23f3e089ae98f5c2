import Memtest.Pmem.Segments

/-!
# When the tested-page map is well formed

The map `pmem_init` builds is well formed exactly when every stretch of RAM or ACPI memory that
it reads touches a page boundary. A stretch strictly inside one page rounds to the inverted
segment `[page + 1, page)`, whose size wraps; a stretch in the last page of the address space,
where rounding its start up wraps to zero, rounds to nearly all of memory.

The stretches are the pieces of the overlay of the firmware's entries, so the condition is about
the input only. Pieces beyond the first `E820_MAP_SIZE` are dropped by `sanitize_e820_map`.
-/

namespace Memtest

open Overlay

/-! ### The entries `init_pm_map` reads -/

/-- Fewer than `E820_MAP_SIZE` pieces start below an address, so a piece that starts there is
kept. -/
def Listed (origMap : List E820Entry) (lo : ℕ) : Prop :=
  ∀ starts : List ℕ, starts.Pairwise (· < ·) →
    (∀ l ∈ starts, l < lo ∧ ∃ hi type, IsPiece (spans origMap) l hi type) →
    starts.length < e820MapSize

/-- A stretch of RAM or ACPI memory that is kept: a piece of the overlay of the firmware's
entries, among the pieces for which `sanitize_e820_map` has room, and of one of the two types for
which `init_pm_map` makes a segment. -/
structure UsablePiece (origMap : List E820Entry) (lo hi type : ℕ) : Prop where
  isPiece : IsPiece (spans origMap) lo hi type
  listed : Listed origMap lo
  usable : type = e820Ram ∨ type = e820Acpi

section

variable {origMap : List E820Entry}

theorem pairwise_lo_sanitizedPieces (hwrap : ∀ e ∈ origMap, e.wraps = false) :
    (sanitizedPieces origMap).Pairwise fun a b => a.span.lo < b.span.lo := by
  refine (List.Pairwise.and_mem.mp (sanitizedPieces_pairwise origMap)).imp ?_
  rintro a b ⟨ha, -, hab⟩
  exact lt_of_lt_of_le (isPiece_of_mem hwrap ha).lt hab

/-- A piece is kept exactly when it is `Listed`. -/
theorem mem_sanitizeE820Map_iff (hwrap : ∀ e ∈ origMap, e.wraps = false) {e : E820Entry} :
    e ∈ sanitizeE820Map origMap ↔ e ∈ sanitizedPieces origMap ∧ Listed origMap e.span.lo := by
  have hlo := pairwise_lo_sanitizedPieces hwrap
  rw [sanitizeE820Map_eq_take hwrap]
  constructor
  · intro he
    refine ⟨List.mem_of_mem_take he, fun starts hstarts hbelow => ?_⟩
    obtain ⟨i, hi, rfl⟩ := List.getElem_of_mem he
    rw [List.length_take] at hi
    rw [List.getElem_take] at hbelow
    -- every start below is the start of one of the first `i` pieces
    have hsub : starts ⊆ ((sanitizedPieces origMap).take i).map fun e => e.span.lo := by
      intro l hl
      obtain ⟨hlt, h, t, hp⟩ := hbelow l hl
      obtain ⟨e', he', hspan⟩ := (exists_mem_sanitizedPieces_iff hwrap).mpr hp
      obtain ⟨j, hj, rfl⟩ := List.getElem_of_mem he'
      have hl' : (sanitizedPieces origMap)[j].span.lo = l := by rw [hspan]
      have hji : j < i := by
        by_contra hge
        rcases Nat.lt_or_ge i j with h | h
        · have := List.pairwise_iff_getElem.mp hlo i j (by omega) hj h
          omega
        · simp only [show j = i by omega] at hl'
          omega
      exact List.mem_map.mpr ⟨_, List.mem_take_iff_getElem.mpr ⟨j, by omega, rfl⟩, hl'⟩
    have hnodup : starts.Nodup := hstarts.imp ne_of_lt
    have hle := (List.subperm_of_subset hnodup hsub).length_le
    rw [List.length_map, List.length_take] at hle
    omega
  · rintro ⟨he, hlisted⟩
    obtain ⟨i, hi, rfl⟩ := List.getElem_of_mem he
    have hlen := hlisted (((sanitizedPieces origMap).take i).map fun e => e.span.lo)
      (by
        rw [List.pairwise_map]
        exact hlo.sublist (List.take_sublist i _))
      (by
        intro l hl
        obtain ⟨e', he', rfl⟩ := List.mem_map.mp hl
        obtain ⟨j, hj, rfl⟩ := List.mem_take_iff_getElem.mp he'
        refine ⟨List.pairwise_iff_getElem.mp hlo j i (by omega) hi (by omega), _, _,
          isPiece_of_mem hwrap (List.getElem_mem _)⟩)
    rw [List.length_map, List.length_take] at hlen
    exact List.mem_take_iff_getElem.mpr ⟨i, by omega, rfl⟩

/-- The usable pieces are the entries of the sanitised map with a usable type. -/
theorem usablePiece_iff (hwrap : ∀ e ∈ origMap, e.wraps = false) {lo hi type : ℕ} :
    UsablePiece origMap lo hi type ↔
      ∃ e ∈ sanitizeE820Map origMap, e.IsUsable ∧ e.span = ⟨lo, hi, type⟩ := by
  constructor
  · rintro ⟨hp, hlisted, husable⟩
    obtain ⟨e, he, hspan⟩ := (exists_mem_sanitizedPieces_iff hwrap).mpr hp
    refine ⟨e, (mem_sanitizeE820Map_iff hwrap).mpr ⟨he, by rwa [hspan]⟩, ?_, hspan⟩
    rwa [E820Entry.IsUsable, ← E820Entry.span_value, hspan]
  · rintro ⟨e, he, husable, hspan⟩
    obtain ⟨hmem, hlisted⟩ := (mem_sanitizeE820Map_iff hwrap).mp he
    rw [hspan] at hlisted
    rw [E820Entry.IsUsable, ← E820Entry.span_value, hspan] at husable
    exact ⟨(exists_mem_sanitizedPieces_iff hwrap).mp ⟨e, hmem, hspan⟩, hlisted, husable⟩

/-- No span ends beyond the address space, so no piece does. -/
theorem hi_lt_of_mem_sanitizedPieces {e : E820Entry} (he : e ∈ sanitizedPieces origMap) :
    e.span.hi < 2 ^ 64 := by
  obtain ⟨i, j, hj, hr, hsome⟩ := mem_sanitizedPieces.mp he
  have hi : i < (sortedPoints origMap).length := by have := hr.lt; omega
  rw [((runEntry_eq_some hi hj hr.lt.le).mp hsome).2]
  exact (sortedPoints origMap)[j].addr.isLt

theorem inOrder_sanitizeE820Map (hwrap : ∀ e ∈ origMap, e.wraps = false) :
    InOrder (sanitizeE820Map origMap) where
  pairwise := by
    rw [sanitizeE820Map_eq_take hwrap]
    exact (sanitizedPieces_pairwise origMap).sublist (List.take_sublist _ _)
  lt := fun _ he => (isPiece_of_mem hwrap ((mem_sanitizeE820Map_iff hwrap).mp he).1).lt
  hi_lt := fun _ he => hi_lt_of_mem_sanitizedPieces ((mem_sanitizeE820Map_iff hwrap).mp he).1

end

theorem sanitizeE820Map_of_wraps {origMap : List E820Entry}
    (hwrap : ∃ e ∈ origMap, e.wraps = true) : sanitizeE820Map origMap = [] := by
  rw [sanitizeE820Map, sanitizeE820MapInto, if_pos (List.any_eq_true.mpr hwrap)]

/-! ### Well-formed maps -/

/-- An address is usable: an entry of a tested type contains it, and no entry of a higher type
does. -/
def IsUsableAt (origMap : List E820Entry) (x : ℕ) : Prop :=
  ∃ e ∈ origMap, e.IsUsable ∧ e.Contains x ∧ e.type = typeAt origMap x

/-- The number of pages of the segments. -/
def pageTotal (pmMap : List PmSegment) : ℕ :=
  (pmMap.map fun seg => seg.stop.toNat - seg.start.toNat).sum

/-- What the tested-page map of a firmware map has to be. -/
structure PmState.WellFormed (origMap : List E820Entry) (s : PmState) : Prop where
  ordered : ∀ seg ∈ s.pmMap, seg.start.toNat ≤ seg.stop.toNat
  sorted : s.pmMap.Pairwise fun a b => a.start.toNat ≤ b.start.toNat
  disjoint : s.pmMap.Pairwise fun a b => ∀ page, ¬ (a.Contains page ∧ b.Contains page)
  usable : ∀ seg ∈ s.pmMap, ∀ page, seg.Contains page →
    ∀ x, x / pageSize = page → IsUsableAt origMap x
  count : s.numPmPages.toNat = pageTotal s.pmMap

/-- An address range touches a page boundary: one of its addresses, or the address just behind it,
is the start of a page. Rounding the start up and the end down then gives bounds in order, though
the segment can still be empty. -/
def TouchesPage (lo hi : ℕ) : Prop := ∃ page, lo ≤ page * pageSize ∧ page * pageSize ≤ hi

/-- The condition on a firmware map: it is rejected because an entry wraps, or every usable piece
that is not discarded touches a page boundary. A piece strictly inside the reserved range is
discarded before it is rounded, so it may lie inside one page. -/
def RoundsSafely (origMap : List E820Entry) : Prop :=
  (∃ e ∈ origMap, e.wraps = true) ∨
    ∀ lo hi type, UsablePiece origMap lo hi type → InHole lo hi ∨ TouchesPage lo hi

theorem isUsableAt_iff {origMap : List E820Entry} {x : ℕ} :
    IsUsableAt origMap x ↔ typeAt origMap x = e820Ram ∨ typeAt origMap x = e820Acpi := by
  constructor
  · rintro ⟨e, -, husable, -, htype⟩
    rwa [E820Entry.IsUsable, htype] at husable
  · intro h
    have hne : top (spans origMap) (fun s => s.lo ≤ x ∧ x < s.hi) ≠ 0 := by
      rcases h with h | h <;> rw [typeAt, valueAt] at h <;> rw [h] <;> decide
    obtain ⟨s, hs, hin, hv⟩ := exists_of_top_ne_zero hne
    obtain ⟨e, he, rfl⟩ := List.mem_map.mp hs
    have htype : e.type = typeAt origMap x := hv
    have hc : e.span.lo ≤ x ∧ x < e.span.hi := of_decide_eq_true hin
    refine ⟨e, he, ?_, hc, htype⟩
    rwa [E820Entry.IsUsable, htype]

/-- A piece that touches a page boundary has an ordered segment inside it. -/
theorem rawSegment_of_touchesPage {e : E820Entry} {seg : PmSegment}
    (hlt : e.span.lo < e.span.hi) (hhi : e.span.hi < 2 ^ 64) (h : rawSegment e = some seg)
    (ht : TouchesPage e.span.lo e.span.hi) :
    seg.start.toNat ≤ seg.stop.toNat ∧ e.span.lo ≤ seg.start.toNat * pageSize ∧
      seg.stop.toNat * pageSize ≤ e.span.hi := by
  have hin : ¬ InHole e.span.lo e.span.hi := fun hin => by
    simp [(rawSegment_eq_none_iff hlt hhi).mpr (.inr hin)] at h
  obtain ⟨hstart, hstop⟩ := rawSegment_spec hhi h
  obtain ⟨page, h1, h2⟩ := ht
  simp only [InHole, reservedMemStart, reservedMemEnd, BitVec.toNat_ofNat] at hin
  simp only [show pageSize = 4096 from rfl] at h1 h2 ⊢
  rw [hstart, hstop]
  simp only [clipLo, clipHi]
  split <;> split <;> omega

/-! ### The loop keeps the map well formed -/

/-- The invariant of the loop of `init_pm_map`: everything stored so far lies below `bound`. -/
structure PmInv (origMap : List E820Entry) (bound : ℕ) (s : PmState) : Prop where
  ordered : ∀ seg ∈ s.pmMap, seg.start.toNat ≤ seg.stop.toNat
  pairwise : s.pmMap.Pairwise fun a b => a.stop.toNat ≤ b.start.toNat
  below : ∀ seg ∈ s.pmMap, seg.stop.toNat * pageSize ≤ bound
  usable : ∀ seg ∈ s.pmMap, ∀ x, seg.Contains (x / pageSize) → IsUsableAt origMap x
  count : s.numPmPages.toNat = pageTotal s.pmMap
  total : pageTotal s.pmMap * pageSize ≤ bound

theorem PmInv.mono {origMap : List E820Entry} {bound bound' : ℕ} {s : PmState}
    (h : PmInv origMap bound s) (hle : bound ≤ bound') : PmInv origMap bound' s where
  ordered := h.ordered
  pairwise := h.pairwise
  below := fun seg hseg => (h.below seg hseg).trans hle
  usable := h.usable
  count := h.count
  total := h.total.trans hle

theorem pageTotal_addSegment {pmMap : List PmSegment} {r : PmSegment}
    (hord : ∀ seg ∈ pmMap, seg.start.toNat ≤ seg.stop.toNat)
    (hr : r.start.toNat ≤ r.stop.toNat) :
    pageTotal (addSegment pmMap r) = pageTotal pmMap + (r.stop.toNat - r.start.toNat) := by
  rcases addSegment_cases pmMap r with ⟨init, last, rfl, hmeet, hadd⟩ | ⟨-, hadd⟩
  · have hlast := hord last (by simp)
    rw [hmeet] at hr
    rw [hadd, hmeet]
    simp only [pageTotal, List.map_append, List.sum_append, List.map_cons, List.map_nil,
      List.sum_singleton]
    omega
  · rw [hadd]
    simp [pageTotal]

/-- Storing an ordered segment of usable pages above `bound` keeps the invariant. -/
theorem PmInv.addSegment {origMap : List E820Entry} {bound hi : ℕ} {s : PmState} {r : PmSegment}
    (h : PmInv origMap bound s) (hr : r.start.toNat ≤ r.stop.toNat)
    (hlo : bound ≤ r.start.toNat * pageSize) (hhi : r.stop.toNat * pageSize ≤ hi)
    (hlt : hi < 2 ^ 64) (husable : ∀ x, r.Contains (x / pageSize) → IsUsableAt origMap x) :
    PmInv origMap hi
      { pmMap := addSegment s.pmMap r, numPmPages := s.numPmPages + (r.stop - r.start) } := by
  have hpage : 0 < pageSize := by decide
  have hrpage : r.start.toNat * pageSize ≤ r.stop.toNat * pageSize := Nat.mul_le_mul_right _ hr
  have hle : ∀ seg ∈ s.pmMap, seg.stop.toNat ≤ r.start.toNat := fun seg hseg =>
    Nat.le_of_mul_le_mul_right ((h.below seg hseg).trans hlo) hpage
  have hsum := pageTotal_addSegment h.ordered hr
  have htotal : pageTotal (Memtest.addSegment s.pmMap r) * pageSize ≤ hi := by
    have := h.total
    rw [hsum, Nat.add_mul, Nat.sub_mul]
    omega
  refine ⟨?_, ?_, ?_, ?_, ?_, htotal⟩
  · refine forall_mem_addSegment h.ordered hr fun last hlast hmeet => ?_
    rw [hmeet] at hr
    exact (h.ordered last hlast).trans hr
  · rcases addSegment_cases s.pmMap r with ⟨init, last, hpm, -, hadd⟩ | ⟨-, hadd⟩
    · have hpw := h.pairwise
      rw [hpm] at hpw
      obtain ⟨hinit, -, hcross⟩ := List.pairwise_append.mp hpw
      dsimp only
      rw [hadd]
      refine List.pairwise_append.mpr ⟨hinit, List.pairwise_singleton _ _, fun a ha b hb => ?_⟩
      rw [List.mem_singleton.mp hb]
      exact hcross a ha last (by simp)
    · dsimp only
      rw [hadd]
      refine List.pairwise_append.mpr ⟨h.pairwise, List.pairwise_singleton _ _,
        fun a ha b hb => ?_⟩
      rw [List.mem_singleton.mp hb]
      exact hle a ha
  · refine forall_mem_addSegment (fun seg hseg => ?_) hhi fun _ _ _ => hhi
    exact ((Nat.mul_le_mul_right _ (hle seg hseg)).trans hrpage).trans hhi
  · refine forall_mem_addSegment h.usable husable fun last hlast hmeet x hx => ?_
    rcases Nat.lt_or_ge (x / pageSize) last.stop.toNat with hlt | hge
    · exact h.usable last hlast x ⟨hx.1, hlt⟩
    · exact husable x ⟨by rw [hmeet]; exact hge, hx.2⟩
  · have hsub : (r.stop - r.start).toNat = r.stop.toNat - r.start.toNat :=
      BitVec.toNat_sub_of_le (by rwa [BitVec.le_def])
    dsimp only
    rw [BitVec.toNat_add, hsub, h.count, hsum]
    refine Nat.mod_eq_of_lt (lt_of_le_of_lt ?_ hlt)
    rw [← hsum]
    exact (Nat.le_mul_of_pos_right _ hpage).trans htotal

/-- One iteration of the loop keeps the invariant, on an entry that touches a page boundary or is
discarded. -/
theorem PmInv.step {origMap : List E820Entry} (hwrap : ∀ e ∈ origMap, e.wraps = false)
    {bound : ℕ} {s : PmState} (h : PmInv origMap bound s) {e : E820Entry}
    (he : e ∈ sanitizeE820Map origMap) (hbound : bound ≤ e.span.lo)
    (hgood : e.IsUsable → InHole e.span.lo e.span.hi ∨ TouchesPage e.span.lo e.span.hi) :
    PmInv origMap e.span.hi (initPmMapStep s e) := by
  have horder := inOrder_sanitizeE820Map hwrap
  have hlt := horder.lt e he
  have hhi := horder.hi_lt e he
  have hpiece := isPiece_of_mem hwrap ((mem_sanitizeE820Map_iff hwrap).mp he).1
  rw [initPmMapStep]
  cases hraw : rawSegment e with
  | none => exact h.mono (hbound.trans hlt.le)
  | some r =>
    have hnone : ¬ (¬ e.IsUsable ∨ InHole e.span.lo e.span.hi) := fun hn => by
      simp [(rawSegment_eq_none_iff hlt hhi).mpr hn] at hraw
    push Not at hnone
    have ht := (hgood hnone.1).resolve_left hnone.2
    obtain ⟨hr, hstart, hstop⟩ := rawSegment_of_touchesPage hlt hhi hraw ht
    refine h.addSegment hr (hbound.trans hstart) hstop hhi fun x hx => ?_
    have hxlo : e.span.lo ≤ x := hstart.trans ((Nat.mul_le_mul_right _ hx.1).trans
      (Nat.div_mul_le_self x pageSize))
    have hxhi : x < e.span.hi :=
      lt_of_lt_of_le (Nat.lt_mul_of_div_lt hx.2 (by decide)) hstop
    rw [isUsableAt_iff, typeAt, hpiece.valueAt_eq hxlo hxhi]
    exact hnone.1

theorem pmInv_foldl {origMap : List E820Entry} (hwrap : ∀ e ∈ origMap, e.wraps = false)
    (hgood : ∀ e ∈ sanitizeE820Map origMap, e.IsUsable →
      InHole e.span.lo e.span.hi ∨ TouchesPage e.span.lo e.span.hi) :
    ∃ bound, PmInv origMap bound (initPmMap (sanitizeE820Map origMap)) := by
  suffices h : ∀ entries, entries <:+ sanitizeE820Map origMap → ∀ (bound : ℕ) (s : PmState),
      PmInv origMap bound s → (∀ e ∈ entries, bound ≤ e.span.lo) →
      ∃ bound, PmInv origMap bound (entries.foldl initPmMapStep s) by
    refine h _ (List.suffix_refl _) 0 _ ?_ (fun _ _ => Nat.zero_le _)
    exact ⟨by simp, by simp, by simp, by simp, rfl, by simp [pageTotal]⟩
  intro entries
  induction entries with
  | nil => exact fun _ bound s hs _ => ⟨bound, hs⟩
  | cons e entries ih =>
    intro hsuff bound s hs hbound
    have he : e ∈ sanitizeE820Map origMap := hsuff.subset (by simp)
    have hpw := (inOrder_sanitizeE820Map hwrap).pairwise.sublist hsuff.sublist
    exact ih ((List.suffix_cons e entries).trans hsuff) e.span.hi _
      (hs.step hwrap he (hbound e (by simp)) (hgood e he))
      fun e' he' => (List.pairwise_cons.mp hpw).1 e' he'

/-- **Rounding is safe when every usable piece touches a page boundary.** -/
theorem wellFormed_of_roundsSafely {e820Map : List E820Entry}
    (h : RoundsSafely (bootE820Map e820Map)) :
    (pmemInit e820Map).WellFormed (bootE820Map e820Map) := by
  set origMap := bootE820Map e820Map with horig
  by_cases hany : ∃ e ∈ origMap, e.wraps = true
  · rw [pmemInit, ← horig, sanitizeE820Map_of_wraps hany]
    exact ⟨by simp [initPmMap, sortPmMap], by simp [initPmMap, sortPmMap],
      by simp [initPmMap, sortPmMap], by simp [initPmMap, sortPmMap], rfl⟩
  · have hwrap : ∀ e ∈ origMap, e.wraps = false := by simpa using hany
    have hgood := h.resolve_left hany
    obtain ⟨bound, hinv⟩ := pmInv_foldl hwrap fun e he husable =>
      hgood _ _ _ ((usablePiece_iff hwrap).mpr ⟨e, he, husable, rfl⟩)
    have hstart : (initPmMap (sanitizeE820Map origMap)).pmMap.Pairwise
        fun a b => a.start.toNat ≤ b.start.toNat := by
      refine (List.Pairwise.and_mem.mp hinv.pairwise).imp ?_
      rintro a b ⟨ha, -, hab⟩
      exact (hinv.ordered a ha).trans hab
    rw [pmemInit, ← horig, sortPmMap_eq_self hstart]
    refine ⟨hinv.ordered, hstart, hinv.pairwise.imp fun {a b} hab page hp => ?_,
      fun seg hseg page hp x hx => hinv.usable seg hseg x (by rwa [hx]), hinv.count⟩
    have h1 := hp.1.2
    have h2 := hp.2.1
    omega

/-! ### Pieces that touch no page boundary -/

/-- A segment that starts nowhere near the end of `seg` leaves `seg` in place. -/
theorem mem_addSegment_of_ne {pmMap : List PmSegment} {seg r : PmSegment} (hseg : seg ∈ pmMap)
    (hne : r.start ≠ seg.stop) : seg ∈ addSegment pmMap r := by
  rcases addSegment_cases pmMap r with ⟨init, last, rfl, hmeet, hadd⟩ | ⟨-, hadd⟩
  · rw [hadd]
    rcases List.mem_append.mp hseg with hseg | hseg
    · simp [hseg]
    · rw [List.mem_singleton.mp hseg] at hne
      exact absurd hmeet hne
  · rw [hadd]
    simp [hseg]

theorem mem_foldl_addSegment_of_ne {seg : PmSegment} {raws : List PmSegment}
    (hne : ∀ r ∈ raws, r.start ≠ seg.stop) {pmMap : List PmSegment} (hseg : seg ∈ pmMap) :
    seg ∈ raws.foldl addSegment pmMap := by
  induction raws generalizing pmMap with
  | nil => exact hseg
  | cons r raws ih =>
    exact ih (fun r' hr' => hne r' (by simp [hr']))
      (mem_addSegment_of_ne hseg (hne r (by simp)))

/-- Segments that all start at page 0 are added one by one behind a segment that ends above it,
if they do. -/
theorem foldl_addSegment_eq_append {raws : List PmSegment}
    (hstart : ∀ r ∈ raws, r.start = 0#64) (hstop : ∀ r ∈ raws, r.stop ≠ 0#64)
    {pmMap : List PmSegment} {seg : PmSegment} (hseg : seg.stop ≠ 0#64) :
    raws.foldl addSegment (pmMap ++ [seg]) = pmMap ++ [seg] ++ raws := by
  induction raws generalizing pmMap seg with
  | nil => simp
  | cons r raws ih =>
    have hadd : addSegment (pmMap ++ [seg]) r = pmMap ++ [seg] ++ [r] := by
      rw [addSegment, List.getLast?_concat]
      dsimp only
      rw [hstart r (by simp), if_neg hseg.symm]
    rw [List.foldl_cons, hadd, ih (fun r' hr' => hstart r' (by simp [hr']))
      (fun r' hr' => hstop r' (by simp [hr'])) (hstop r (by simp))]
    simp

/-- The pages below the last page of the address space. -/
def topPage : ℕ := 2 ^ 52 - 1

/-- The segment of a piece in the last page starts at page 0. -/
theorem rawSegment_of_topPage {e : E820Entry} {seg : PmSegment} (hlt : e.span.lo < e.span.hi)
    (hhi : e.span.hi < 2 ^ 64) (h : rawSegment e = some seg)
    (htop : 2 ^ 64 ≤ e.span.lo + 4095) :
    seg.start = 0#64 ∧ seg.stop.toNat = topPage := by
  obtain ⟨hstart, hstop⟩ := rawSegment_spec hhi h
  rw [clipLo, if_neg (by omega)] at hstart
  rw [clipHi, if_neg (by omega)] at hstop
  have h0 : seg.start.toNat = 0 := by omega
  refine ⟨BitVec.eq_of_toNat_eq h0, ?_⟩
  rw [hstop, topPage]
  omega

/-- A segment that starts at page 0 and ends at the top ends up in the map, perhaps without its
page 0, and leaves no room for the segments below it. -/
theorem exists_topPage_segment {raws raws' : List PmSegment} {w : PmSegment}
    (hchain : Chain (raws ++ [w])) (hw : w.start = 0#64 ∧ w.stop.toNat = topPage)
    (hraws' : ∀ r ∈ raws', r.start = 0#64 ∧ r.stop.toNat = topPage)
    (hdisjoint : (mergeSegments (raws ++ w :: raws')).Pairwise
      fun a b => ∀ page, ¬ (a.Contains page ∧ b.Contains page)) :
    ∃ v ∈ mergeSegments (raws ++ w :: raws'),
      v.start.toNat ≤ 1 ∧ v.stop.toNat = topPage ∧
        ∀ a ∈ mergeSegments raws, ∀ page, 1 ≤ page → page < topPage → ¬ a.Contains page := by
  have htop : ∀ r : PmSegment, r.stop.toNat = topPage → r.stop ≠ 0#64 := fun r hr h0 => by
    rw [h0] at hr
    exact absurd hr (by decide)
  have hmerge : mergeSegments (raws ++ w :: raws') =
      raws'.foldl addSegment (addSegment (mergeSegments raws) w) := by
    simp [mergeSegments]
  rw [hmerge] at hdisjoint ⊢
  rcases addSegment_cases (mergeSegments raws) w with ⟨init, last, hpm, hmeet, hadd⟩ | ⟨-, hadd⟩
  · -- `w` extends a segment that ends at page 0, so nothing stored so far has a page above it
    rw [hadd, foldl_addSegment_eq_append (fun r hr => (hraws' r hr).1)
      (fun r hr => htop r (hraws' r hr).2)
      (show (⟨last.start, w.stop⟩ : PmSegment).stop ≠ 0#64 from htop w hw.2)]
    have hlast : last.stop.toNat = 0 := by rw [← hmeet, hw.1]; rfl
    refine ⟨⟨last.start, w.stop⟩, by simp, ?_, hw.2, fun a ha page h1 _ hc => ?_⟩
    · have := hchain.of_append.mergeSegments_start_le last (by simp [hpm])
      dsimp only
      omega
    · have hle := hchain.of_append.stop_le_getLast hpm ha
      have := hc.2
      omega
  · rw [hadd, foldl_addSegment_eq_append (fun r hr => (hraws' r hr).1)
      (fun r hr => htop r (hraws' r hr).2) (htop w hw.2)] at hdisjoint ⊢
    refine ⟨w, by simp, by rw [hw.1]; exact Nat.zero_le 1, hw.2, fun a ha page _ h2 hc => ?_⟩
    have hcross := (List.pairwise_append.mp (List.pairwise_append.mp hdisjoint).1).2.2 a ha w
      (by simp)
    exact hcross page ⟨hc, by rw [hw.1]; exact Nat.zero_le page, by rwa [hw.2]⟩

section

variable {e820Map : List E820Entry}

/-- The stored segments are pairwise disjoint also before sorting. -/
theorem PmState.WellFormed.mergeSegments_disjoint
    (h : (pmemInit e820Map).WellFormed (bootE820Map e820Map)) :
    (mergeSegments ((sanitizeE820Map (bootE820Map e820Map)).filterMap rawSegment)).Pairwise
      fun a b => ∀ page, ¬ (a.Contains page ∧ b.Contains page) := by
  have hd := h.disjoint
  rw [pmemInit] at hd
  rw [← initPmMap_pmMap]
  exact ((sortPmMap_perm _).pairwise_iff fun {a b} hab page hp => hab page hp.symm).mp hd

theorem mem_pmemInit {seg : PmSegment} :
    seg ∈ (pmemInit e820Map).pmMap ↔
      seg ∈ mergeSegments ((sanitizeE820Map (bootE820Map e820Map)).filterMap rawSegment) := by
  rw [pmemInit, ← initPmMap_pmMap]
  exact (sortPmMap_perm _).mem_iff

/-- A usable address below a kept piece lies in a usable piece that is kept as well. -/
theorem exists_below_of_isUsableAt {origMap below above : List E820Entry}
    (hwrap : ∀ e ∈ origMap, e.wraps = false) {e : E820Entry}
    (hsplit : sanitizeE820Map origMap = below ++ e :: above) {x : ℕ} (hx : x < e.span.lo)
    (husable : IsUsableAt origMap x) : ∃ e' ∈ below, e'.IsUsable ∧ e'.Contains x := by
  rw [isUsableAt_iff] at husable
  obtain ⟨e', he', hc⟩ := exists_mem_of_typeAt_ne hwrap (x := x)
    (by rcases husable with h | h <;> rw [h] <;> decide)
  have htype : e'.type = typeAt origMap x :=
    ((isPiece_of_mem hwrap he').valueAt_eq hc.1 hc.2).symm
  have hpw := sanitizedPieces_pairwise origMap
  rw [← List.take_append_drop e820MapSize (sanitizedPieces origMap),
    ← sanitizeE820Map_eq_take hwrap, hsplit] at he' hpw
  refine ⟨e', ?_, by rwa [E820Entry.IsUsable, htype], hc⟩
  -- the pieces that come with `e` or after it start above `x`
  have hlt := (inOrder_sanitizeE820Map hwrap).lt e (by rw [hsplit]; simp)
  have hlate : ∀ b ∈ e :: (above ++ (sanitizedPieces origMap).drop e820MapSize),
      e.span.lo ≤ b.span.lo := by
    rw [List.append_assoc, List.cons_append] at hpw
    have hpw' := (List.pairwise_append.mp hpw).2.1
    intro b hb
    rcases List.mem_cons.mp hb with rfl | hb
    · exact le_rfl
    · exact hlt.le.trans ((List.pairwise_cons.mp hpw').1 b hb)
  rw [List.append_assoc, List.cons_append, List.mem_append] at he'
  refine he'.resolve_right fun hb => ?_
  have := hlate e' hb
  have := hc.1
  omega

/-- Entries that contain points spread further apart than the entries reach are as many as the
points. -/
theorem le_length_of_spread {entries : List E820Entry} {n : ℕ} {x : ℕ → ℕ} (hx : Monotone x)
    (h : ∀ i < n, ∃ e ∈ entries, e.Contains (x i) ∧ e.span.hi ≤ x (i + 1)) :
    n ≤ entries.length := by
  have : Nonempty E820Entry := ⟨⟨0#64, 0#64, 0⟩⟩
  choose! e he hc hhi using h
  have hne : ∀ i < n, ∀ j < n, i < j → e i ≠ e j := by
    intro i hi j hj hij heq
    have h1 := hhi i hi
    have h2 := (hc j hj).2
    have h3 : x (i + 1) ≤ x j := hx hij
    rw [heq] at h1
    omega
  have hnodup : ((List.range n).map e).Nodup := by
    refine List.Nodup.map_on (fun i hi j hj heq => ?_) List.nodup_range
    rw [List.mem_range] at hi hj
    rcases Nat.lt_trichotomy i j with hij | hij | hij
    · exact absurd heq (hne i hi j hj hij)
    · exact hij
    · exact absurd heq.symm (hne j hj i hi hij)
  have hsub : (List.range n).map e ⊆ entries := fun b hb => by
    obtain ⟨i, hi, rfl⟩ := List.mem_map.mp hb
    exact he i (List.mem_range.mp hi)
  simpa using (List.subperm_of_subset hnodup hsub).length_le

/-- **A piece in the last page spoils the map.** Its segment covers nearly all of memory, so all
of memory would have to be usable, in fewer than `E820_MAP_SIZE` pieces without a whole page. -/
theorem lt_of_wellFormed (hwrap : ∀ e ∈ bootE820Map e820Map, e.wraps = false)
    (h : (pmemInit e820Map).WellFormed (bootE820Map e820Map)) {e : E820Entry}
    (he : e ∈ sanitizeE820Map (bootE820Map e820Map)) {r : PmSegment}
    (hraw : rawSegment e = some r) : e.span.lo + 4095 < 2 ^ 64 := by
  by_contra hge
  have horder := inOrder_sanitizeE820Map hwrap
  have hdisjoint := h.mergeSegments_disjoint
  obtain ⟨below, above, hsplit⟩ := List.append_of_mem he
  have hpw := horder.pairwise
  rw [hsplit] at hpw
  have hfilter : (sanitizeE820Map (bootE820Map e820Map)).filterMap rawSegment =
      below.filterMap rawSegment ++ r :: above.filterMap rawSegment := by
    rw [hsplit, List.filterMap_append, List.filterMap_cons_some hraw]
  have hchain := chain_of_inOrder horder
  rw [hfilter] at hchain hdisjoint
  rw [← List.singleton_append, ← List.append_assoc] at hchain
  have hr := rawSegment_of_topPage (horder.lt e he) (horder.hi_lt e he) hraw (by omega)
  obtain ⟨v, hv, hvstart, hvstop, hroom⟩ := exists_topPage_segment hchain.of_append hr
    (fun r' hr' => by
      obtain ⟨e', he', hraw'⟩ := List.mem_filterMap.mp hr'
      have hmem : e' ∈ sanitizeE820Map (bootE820Map e820Map) := by
        rw [hsplit]
        simp [he']
      have hle := (List.pairwise_cons.mp (List.pairwise_append.mp hpw).2.1).1 e' he'
      have hlt := horder.lt e he
      exact rawSegment_of_topPage (horder.lt e' hmem) (horder.hi_lt e' hmem) hraw' (by omega))
    hdisjoint
  rw [← hfilter] at hv
  have hlen : below.length < e820MapSize := by
    have := congrArg List.length hsplit
    rw [sanitizeE820Map_eq_take hwrap, List.length_take, List.length_append,
      List.length_cons] at this
    omega
  -- the pages `512 + 4 i` are usable, so a kept piece covers the first byte of each
  have hmono : Monotone fun i => (512 + 4 * i) * pageSize :=
    fun i j hij => Nat.mul_le_mul_right _ (by omega)
  suffices hspread : ∀ i < e820MapSize, ∃ e' ∈ below, e'.Contains ((512 + 4 * i) * pageSize) ∧
      e'.span.hi ≤ (512 + 4 * (i + 1)) * pageSize by
    have := le_length_of_spread hmono hspread
    omega
  intro i hi
  simp only [e820MapSize] at hi
  have hxlo : (512 + 4 * i) * pageSize < e.span.lo := by
    simp only [show pageSize = 4096 from rfl]
    omega
  have husable := h.usable v (mem_pmemInit.mpr hv) (512 + 4 * i)
    ⟨by omega, by rw [hvstop, topPage]; omega⟩ ((512 + 4 * i) * pageSize)
    (Nat.mul_div_cancel _ (by decide))
  obtain ⟨e', he', hus, hc⟩ := exists_below_of_isUsableAt hwrap hsplit hxlo husable
  refine ⟨e', he', hc, ?_⟩
  by_contra hlong
  -- the piece has the whole page `512 + 4 i + 1`, for which there is no room
  have hmem' : e' ∈ sanitizeE820Map (bootE820Map e820Map) := by
    rw [hsplit]
    simp [he']
  have hlt' := horder.lt e' hmem'
  have hhi' := horder.hi_lt e' hmem'
  have hc1 := hc.1
  simp only [show pageSize = 4096 from rfl] at hc1 hlong
  have hnone : rawSegment e' ≠ none := fun hn => by
    rcases (rawSegment_eq_none_iff hlt' hhi').mp hn with hn | hn
    · exact hn hus
    · simp only [InHole, reservedMemStart, reservedMemEnd, BitVec.toNat_ofNat] at hn
      omega
  obtain ⟨r', hr'⟩ := Option.ne_none_iff_exists'.mp hnone
  obtain ⟨hstart', hstop'⟩ := rawSegment_spec hhi' hr'
  have hbounds : r'.start.toNat ≤ 512 + 4 * i ∧ 512 + 4 * i + 2 ≤ r'.stop.toNat := by
    rw [hstart', hstop']
    simp only [clipLo, clipHi]
    split <;> split <;> omega
  have hpage : r'.start.toNat < 512 + 4 * i + 1 ∧ 512 + 4 * i + 1 < r'.stop.toNat := by omega
  obtain ⟨a, ha, hac⟩ := hchain.of_append.of_append.exists_contains
    (List.mem_filterMap.mpr ⟨e', he', hr'⟩) hpage.1 hpage.2
  exact hroom a ha _ (by omega) (by rw [topPage]; omega) hac

/-- A usable piece inside one page spoils the map: its inverted segment stays in it. -/
theorem touchesPage_of_wellFormed (hwrap : ∀ e ∈ bootE820Map e820Map, e.wraps = false)
    (h : (pmemInit e820Map).WellFormed (bootE820Map e820Map)) {e : E820Entry}
    (he : e ∈ sanitizeE820Map (bootE820Map e820Map)) (husable : e.IsUsable) :
    InHole e.span.lo e.span.hi ∨ TouchesPage e.span.lo e.span.hi := by
  by_contra hbad
  push Not at hbad
  obtain ⟨hin, htouch⟩ := hbad
  have horder := inOrder_sanitizeE820Map hwrap
  have hlt := horder.lt e he
  have hhi := horder.hi_lt e he
  have hnone : rawSegment e ≠ none := fun hn =>
    ((rawSegment_eq_none_iff hlt hhi).mp hn).elim (fun hn => hn husable) hin
  obtain ⟨r, hraw⟩ := Option.ne_none_iff_exists'.mp hnone
  have htop := lt_of_wellFormed hwrap h he hraw
  obtain ⟨hstart, hstop⟩ := rawSegment_spec hhi hraw
  have hpage : ¬ (e.span.lo + 4095) / 4096 * 4096 ≤ e.span.hi := fun hle =>
    htouch ⟨(e.span.lo + 4095) / 4096, by simp only [show pageSize = 4096 from rfl]; omega, hle⟩
  simp only [InHole, reservedMemStart, reservedMemEnd, BitVec.toNat_ofNat] at hin
  -- clipping would have moved the piece to a page boundary, so its segment is inverted
  have hinv : r.start.toNat = (e.span.lo + 4095) / 4096 ∧ r.stop.toNat + 1 = r.start.toNat := by
    rw [hstart, hstop]
    simp only [clipLo, clipHi]
    split <;> split <;> omega
  obtain ⟨below, above, hsplit⟩ := List.append_of_mem he
  have hpw := horder.pairwise
  rw [hsplit] at hpw
  have hfilter : (sanitizeE820Map (bootE820Map e820Map)).filterMap rawSegment =
      below.filterMap rawSegment ++ r :: above.filterMap rawSegment := by
    rw [hsplit, List.filterMap_append, List.filterMap_cons_some hraw]
  have hchain := chain_of_inOrder horder
  rw [hfilter, ← List.singleton_append, ← List.append_assoc] at hchain
  -- neither the segments below nor those above meet it
  have hadded : r ∈ addSegment (mergeSegments (below.filterMap rawSegment)) r := by
    rcases addSegment_cases (mergeSegments (below.filterMap rawSegment)) r with
      ⟨init, last, hpm, hmeet, -⟩ | ⟨-, hadd⟩
    · have hlast : last ∈ mergeSegments (below.filterMap rawSegment) := by simp [hpm]
      have hle := hchain.of_append.stop_le_last hlast
      rw [← hmeet] at hle
      omega
    · simp [hadd]
  have hne : ∀ r' ∈ above.filterMap rawSegment, r'.start ≠ r.stop := by
    intro r' hr' heq
    obtain ⟨e', he', hraw'⟩ := List.mem_filterMap.mp hr'
    have hmem : e' ∈ sanitizeE820Map (bootE820Map e820Map) := by
      rw [hsplit]
      simp [he']
    have hle := (List.pairwise_cons.mp (List.pairwise_append.mp hpw).2.1).1 e' he'
    have htop' := lt_of_wellFormed hwrap h hmem hraw'
    have hstart' := (rawSegment_spec (horder.hi_lt e' hmem) hraw').1
    rw [heq] at hstart'
    simp only [clipLo] at hstart'
    split at hstart' <;> omega
  have hmem : r ∈ (pmemInit e820Map).pmMap := by
    rw [mem_pmemInit, hfilter]
    have := mem_foldl_addSegment_of_ne hne hadded
    simpa [mergeSegments] using this
  have := h.ordered r hmem
  omega

end

/-- **The tested-page map is well formed exactly when every usable piece touches a page
boundary**, if the firmware's map is not rejected.

Both directions are needed for the condition to be sharp: one piece inside a page is enough to put
an inverted segment into `pm_map`, and nothing that happens to the map later, the clipping at the
reserved range or the sorting, takes it out again. -/
theorem pmemInit_wellFormed_iff (e820Map : List E820Entry) :
    (pmemInit e820Map).WellFormed (bootE820Map e820Map) ↔
      RoundsSafely (bootE820Map e820Map) := by
  refine ⟨fun h => ?_, wellFormed_of_roundsSafely⟩
  by_cases hany : ∃ e ∈ bootE820Map e820Map, e.wraps = true
  · exact .inl hany
  · have hwrap : ∀ e ∈ bootE820Map e820Map, e.wraps = false := by simpa using hany
    refine .inr fun lo hi type hp => ?_
    obtain ⟨e, he, husable, hspan⟩ := (usablePiece_iff hwrap).mp hp
    have ht := touchesPage_of_wellFormed hwrap h he husable
    rwa [hspan] at ht

/-- The map of a RAM entry from `0x100` to `0x300` has the inverted segment `[1, 0)`. -/
theorem pmemInit_not_wellFormed_small :
    ¬ (pmemInit [⟨0x100#64, 0x200#64, 1⟩]).WellFormed
      (bootE820Map [⟨0x100#64, 0x200#64, 1⟩]) := by
  intro h
  have hmem : (⟨1#64, 0#64⟩ : PmSegment) ∈ (pmemInit [⟨0x100#64, 0x200#64, 1⟩]).pmMap := by
    decide
  exact absurd (h.ordered _ hmem) (by decide)

end Memtest
