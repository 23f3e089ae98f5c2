import Mathlib.Algebra.Group.Nat.Defs
import Memtest.Pmem.PmMap
import Memtest.Pmem.SanitizeSpec

/-!
# What `init_pm_map` and `sort_pm_map` do to the pieces of a sanitised map

The entries `init_pm_map` reads come in order of address and do not overlap. Rounding can still
turn an entry into an inverted segment (its start is one above its end), and an entry in the last
page of the address space into a segment that starts at page 0, so the segments need not be in
order. What always holds is a `Chain`: their ends ascend, and no start is more than one above its
end. This is enough for merging to lose no page (but the first of a segment) and to invent none.
-/

namespace Memtest

open Overlay

/-! ### The segment of one entry -/

/-- The address range of an entry lies strictly inside the reserved range. -/
def InHole (lo hi : ℕ) : Prop := reservedMemStart.toNat < lo ∧ hi < reservedMemEnd.toNat

/-- The start of an entry after clipping. -/
def clipLo (lo : ℕ) : ℕ := if 0xa0000 < lo ∧ lo < 0x100000 then 0x100000 else lo

/-- The end of an entry after clipping. -/
def clipHi (hi : ℕ) : ℕ := if 0xa0000 < hi ∧ hi < 0x100000 then 0xa0000 else hi

theorem inReserved_iff {a : BitVec 64} : inReserved a ↔ 0xa0000 < a.toNat ∧ a.toNat < 0x100000 :=
  Iff.rfl

theorem toNat_end {e : E820Entry} (hhi : e.span.hi < 2 ^ 64) :
    (e.addr + e.size).toNat = e.span.hi := by
  rw [BitVec.toNat_add, ← E820Entry.span_hi]
  exact Nat.mod_eq_of_lt hhi

/-- Which entries have a segment. -/
theorem rawSegment_eq_none_iff {e : E820Entry} (hlt : e.span.lo < e.span.hi)
    (hhi : e.span.hi < 2 ^ 64) :
    rawSegment e = none ↔ ¬ e.IsUsable ∨ InHole e.span.lo e.span.hi := by
  have hend := toNat_end hhi
  have hhole : (inReserved e.addr ∧ e.addr + e.size < reservedMemEnd) ↔
      InHole e.span.lo e.span.hi := by
    rw [inReserved_iff, BitVec.lt_def, hend]
    simp only [E820Entry.span_lo, InHole, reservedMemStart, reservedMemEnd] at hlt ⊢
    simp only [BitVec.toNat_ofNat]
    omega
  rw [rawSegment]
  split
  · next hu => simp [hu, hhole]
  · next hu => simp [hu]

theorem toNat_clipLo (a : BitVec 64) :
    (if inReserved a then reservedMemEnd else a).toNat = clipLo a.toNat := by
  by_cases h : inReserved a
  · rw [if_pos h, clipLo, if_pos (inReserved_iff.mp h)]
    rfl
  · rw [if_neg h, clipLo, if_neg (inReserved_iff.not.mp h)]

theorem toNat_clipHi (a : BitVec 64) :
    (if inReserved a then reservedMemStart else a).toNat = clipHi a.toNat := by
  by_cases h : inReserved a
  · rw [if_pos h, clipHi, if_pos (inReserved_iff.mp h)]
    rfl
  · rw [if_neg h, clipHi, if_neg (inReserved_iff.not.mp h)]

theorem toNat_roundUp (a : BitVec 64) :
    (a + BitVec.ofNat 64 pageSize - 1#64).toNat = (a.toNat + 4095) % 2 ^ 64 := by
  have hpage : BitVec.ofNat 64 pageSize = 4096#64 := rfl
  rw [hpage]
  bv_omega

/-- The pages of the segment of an entry. -/
theorem rawSegment_spec {e : E820Entry} {seg : PmSegment} (hhi : e.span.hi < 2 ^ 64)
    (h : rawSegment e = some seg) :
    seg.start.toNat = (clipLo e.span.lo + 4095) % 2 ^ 64 / 4096 ∧
      seg.stop.toNat = clipHi e.span.hi / 4096 := by
  rw [rawSegment] at h
  dsimp only at h
  split at h
  · split at h
    · simp at h
    · obtain rfl := Option.some.inj h
      dsimp only
      rw [BitVec.toNat_ushiftRight, BitVec.toNat_ushiftRight, toNat_roundUp, toNat_clipLo,
        toNat_clipHi, toNat_end hhi, Nat.shiftRight_eq_div_pow, Nat.shiftRight_eq_div_pow]
      exact ⟨rfl, rfl⟩
  · simp at h

/-! ### Chains of segments -/

/-- The ends of the segments ascend, and no start is more than one above its end. -/
structure Chain (raws : List PmSegment) : Prop where
  stop_le : raws.Pairwise fun a b => a.stop.toNat ≤ b.stop.toNat
  start_le : ∀ r ∈ raws, r.start.toNat ≤ r.stop.toNat + 1

/-- Entries in order of address, none of which is empty or reaches the end of the address
space. -/
structure InOrder (entries : List E820Entry) : Prop where
  pairwise : entries.Pairwise fun a b => a.span.hi ≤ b.span.lo
  lt : ∀ e ∈ entries, e.span.lo < e.span.hi
  hi_lt : ∀ e ∈ entries, e.span.hi < 2 ^ 64

theorem chain_of_inOrder {entries : List E820Entry} (h : InOrder entries) :
    Chain (entries.filterMap rawSegment) where
  stop_le := by
    rw [List.pairwise_filterMap]
    refine (List.Pairwise.and_mem.mp h.pairwise).imp ?_
    rintro a b ⟨ha, hb, hab⟩ ra hra rb hrb
    have hlt := h.lt b hb
    rw [(rawSegment_spec (h.hi_lt a ha) hra).2, (rawSegment_spec (h.hi_lt b hb) hrb).2]
    simp only [clipHi]
    split <;> split <;> omega
  start_le := by
    intro r hr
    obtain ⟨e, he, hre⟩ := List.mem_filterMap.mp hr
    have hlt := h.lt e he
    have hhi := h.hi_lt e he
    have hin : ¬ InHole e.span.lo e.span.hi := fun hin => by
      simp [(rawSegment_eq_none_iff hlt hhi).mpr (.inr hin)] at hre
    obtain ⟨hstart, hstop⟩ := rawSegment_spec hhi hre
    rw [hstart, hstop]
    simp only [InHole, reservedMemStart, reservedMemEnd, BitVec.toNat_ofNat] at hin
    simp only [clipLo, clipHi]
    split <;> split <;> omega

/-! ### Merging -/

/-- The segments `init_pm_map` stores for the segments of the entries. -/
def mergeSegments (raws : List PmSegment) : List PmSegment := raws.foldl addSegment []

theorem mergeSegments_append_singleton (raws : List PmSegment) (r : PmSegment) :
    mergeSegments (raws ++ [r]) = addSegment (mergeSegments raws) r := by
  simp [mergeSegments]

theorem initPmMap_pmMap (entries : List E820Entry) :
    (initPmMap entries).pmMap = mergeSegments (entries.filterMap rawSegment) := by
  suffices h : ∀ s : PmState, (entries.foldl initPmMapStep s).pmMap =
      (entries.filterMap rawSegment).foldl addSegment s.pmMap from h _
  induction entries with
  | nil => exact fun _ => rfl
  | cons e entries ih =>
    intro s
    rw [List.foldl_cons, ih, initPmMapStep, List.filterMap_cons]
    cases rawSegment e <;> rfl

/-- What storing a segment does: the last segment is extended, or one is added. -/
theorem addSegment_cases (pmMap : List PmSegment) (r : PmSegment) :
    (∃ init last, pmMap = init ++ [last] ∧ r.start = last.stop ∧
      addSegment pmMap r = init ++ [⟨last.start, r.stop⟩]) ∨
    ((∀ last ∈ pmMap.getLast?, r.start ≠ last.stop) ∧ addSegment pmMap r = pmMap ++ [r]) := by
  rw [addSegment]
  rcases List.eq_nil_or_concat pmMap with rfl | ⟨init, last, rfl⟩
  · exact .inr ⟨by simp, rfl⟩
  · simp only [List.concat_eq_append, List.getLast?_concat, List.dropLast_concat]
    by_cases h : r.start = last.stop
    · exact .inl ⟨init, last, rfl, h, by rw [if_pos h]⟩
    · refine .inr ⟨fun l hl => ?_, by rw [if_neg h]⟩
      obtain rfl : last = l := by simpa using hl
      exact h

/-- What holds of the stored segments still holds after storing one more, if it holds of the new
segment and of the extension of the last one. -/
theorem forall_mem_addSegment {P : PmSegment → Prop} {pmMap : List PmSegment} {r : PmSegment}
    (hold : ∀ seg ∈ pmMap, P seg) (hnew : P r)
    (hext : ∀ last ∈ pmMap, r.start = last.stop → P ⟨last.start, r.stop⟩) :
    ∀ seg ∈ addSegment pmMap r, P seg := by
  intro seg hseg
  rcases addSegment_cases pmMap r with ⟨init, last, rfl, hmeet, hadd⟩ | ⟨-, hadd⟩
  · rw [hadd, List.mem_append, List.mem_singleton] at hseg
    rcases hseg with hseg | rfl
    · exact hold seg (by simp [hseg])
    · exact hext last (by simp) hmeet
  · rw [hadd, List.mem_append, List.mem_singleton] at hseg
    rcases hseg with hseg | rfl
    · exact hold seg hseg
    · exact hnew

theorem Chain.of_append {raws raws' : List PmSegment} (h : Chain (raws ++ raws')) :
    Chain raws where
  stop_le := (List.pairwise_append.mp h.stop_le).1
  start_le := fun a ha => h.start_le a (by simp [ha])

/-- Every bound of a stored segment is a bound of a segment of an entry. -/
theorem bounds_of_mem_mergeSegments {raws : List PmSegment} :
    ∀ seg ∈ mergeSegments raws,
      (∃ r ∈ raws, r.start = seg.start) ∧ ∃ r ∈ raws, r.stop = seg.stop := by
  induction raws using List.reverseRecOn with
  | nil => simp [mergeSegments]
  | append_singleton raws r ih =>
    have old : ∀ seg ∈ mergeSegments raws, (∃ r' ∈ raws ++ [r], r'.start = seg.start) ∧
        ∃ r' ∈ raws ++ [r], r'.stop = seg.stop := fun seg hs => by
      obtain ⟨⟨a, ha, hstart⟩, ⟨b, hb, hstop⟩⟩ := ih seg hs
      exact ⟨⟨a, by simp [ha], hstart⟩, ⟨b, by simp [hb], hstop⟩⟩
    rw [mergeSegments_append_singleton]
    exact forall_mem_addSegment old ⟨⟨r, by simp, rfl⟩, ⟨r, by simp, rfl⟩⟩
      fun last hlast _ => ⟨(old last hlast).1, ⟨r, by simp, rfl⟩⟩

/-- The last segment stored ends where the last segment of an entry ends. -/
theorem getLast_mergeSegments (raws : List PmSegment) :
    (mergeSegments raws).getLast?.map PmSegment.stop = raws.getLast?.map PmSegment.stop := by
  induction raws using List.reverseRecOn with
  | nil => rfl
  | append_singleton raws r _ =>
    rw [mergeSegments_append_singleton]
    rcases addSegment_cases (mergeSegments raws) r with
      ⟨init, last, -, -, hadd⟩ | ⟨-, hadd⟩ <;> simp [hadd]

/-- Merging invents no page. -/
theorem exists_raw_of_contains {raws : List PmSegment} {page : ℕ} :
    ∀ seg ∈ mergeSegments raws, seg.Contains page → ∃ r ∈ raws, r.Contains page := by
  induction raws using List.reverseRecOn with
  | nil => simp [mergeSegments]
  | append_singleton raws r ih =>
    have old : ∀ seg ∈ mergeSegments raws, seg.Contains page →
        ∃ r' ∈ raws ++ [r], r'.Contains page := fun seg hs hc => by
      obtain ⟨a, ha, hac⟩ := ih seg hs hc
      exact ⟨a, by simp [ha], hac⟩
    rw [mergeSegments_append_singleton]
    refine forall_mem_addSegment old (fun hc => ⟨r, by simp, hc⟩) fun last hlast hmeet hc => ?_
    -- the page lies below or above the seam of the extended segment
    rcases Nat.lt_or_ge page last.stop.toNat with hlt | hge
    · exact old last hlast ⟨hc.1, hlt⟩
    · exact ⟨r, by simp, by rw [hmeet]; exact hge, hc.2⟩

section

variable {raws : List PmSegment}

/-- No stored segment ends above the last one. -/
theorem Chain.stop_le_last {r seg : PmSegment} (h : Chain (raws ++ [r]))
    (hseg : seg ∈ mergeSegments raws) : seg.stop.toNat ≤ r.stop.toNat := by
  obtain ⟨-, a, ha, hstop⟩ := bounds_of_mem_mergeSegments seg hseg
  rw [← hstop]
  exact (List.pairwise_append.mp h.stop_le).2.2 a ha r (by simp)

/-- No stored segment ends above the last stored one. -/
theorem Chain.stop_le_getLast {init : List PmSegment} {last seg : PmSegment} (h : Chain raws)
    (hpm : mergeSegments raws = init ++ [last]) (hseg : seg ∈ mergeSegments raws) :
    seg.stop.toNat ≤ last.stop.toNat := by
  have hlast := getLast_mergeSegments raws
  obtain ⟨-, a, ha, hstop⟩ := bounds_of_mem_mergeSegments seg hseg
  rcases List.eq_nil_or_concat raws with rfl | ⟨raws', r, rfl⟩
  · simp at ha
  · rw [hpm] at hlast
    simp only [List.getLast?_concat, List.concat_eq_append, Option.map_some,
      Option.some.injEq] at hlast
    rw [hlast, ← hstop]
    rw [List.concat_eq_append] at ha h
    rcases List.mem_append.mp ha with ha | ha
    · exact (List.pairwise_append.mp h.stop_le).2.2 a ha r (by simp)
    · rw [List.mem_singleton.mp ha]

theorem Chain.mergeSegments_start_le (h : Chain raws) :
    ∀ seg ∈ mergeSegments raws, seg.start.toNat ≤ seg.stop.toNat + 1 := by
  induction raws using List.reverseRecOn with
  | nil => simp [mergeSegments]
  | append_singleton raws r ih =>
    rw [mergeSegments_append_singleton]
    refine forall_mem_addSegment (ih h.of_append) (h.start_le r (by simp)) fun last hlast _ => ?_
    have h1 := ih h.of_append last hlast
    have h2 := h.stop_le_last hlast
    dsimp only
    omega

/-- A page of a stored segment stays in one when a further segment is stored. -/
theorem Chain.contains_addSegment {r : PmSegment} {page : ℕ} (h : Chain (raws ++ [r]))
    (hp : ∃ seg ∈ mergeSegments raws, seg.Contains page) :
    ∃ seg ∈ addSegment (mergeSegments raws) r, seg.Contains page := by
  obtain ⟨seg, hseg, hc⟩ := hp
  have hle := h.stop_le_last hseg
  rcases addSegment_cases (mergeSegments raws) r with ⟨init, last, hpm, -, hadd⟩ | ⟨-, hadd⟩
  · rw [hpm, List.mem_append, List.mem_singleton] at hseg
    rw [hadd]
    rcases hseg with hseg | rfl
    · exact ⟨seg, by simp [hseg], hc⟩
    · exact ⟨⟨seg.start, r.stop⟩, by simp, hc.1, lt_of_lt_of_le hc.2 hle⟩
  · rw [hadd]
    exact ⟨seg, by simp [hseg], hc⟩

/-- **Merging loses no page** but possibly the first one of a segment. -/
theorem Chain.exists_contains {r : PmSegment} {page : ℕ} (h : Chain raws) (hr : r ∈ raws)
    (hlo : r.start.toNat < page) (hhi : page < r.stop.toNat) :
    ∃ seg ∈ mergeSegments raws, seg.Contains page := by
  induction raws using List.reverseRecOn with
  | nil => simp at hr
  | append_singleton raws r' ih =>
    rw [mergeSegments_append_singleton]
    rcases List.mem_append.mp hr with hr | hr
    · exact h.contains_addSegment (ih h.of_append hr)
    · obtain rfl := List.mem_singleton.mp hr
      rcases addSegment_cases (mergeSegments raws) r with
        ⟨init, last, hpm, hmeet, hadd⟩ | ⟨-, hadd⟩
      · have hstart := h.of_append.mergeSegments_start_le last (by simp [hpm])
        rw [hadd]
        refine ⟨⟨last.start, r.stop⟩, by simp, ?_, hhi⟩
        rw [hmeet] at hlo
        exact hstart.trans hlo
      · rw [hadd]
        exact ⟨r, by simp, hlo.le, hhi⟩

end

/-! ### Sorting -/

theorem shiftInsert_perm (candidate : PmSegment) (sorted : List PmSegment) :
    (shiftInsert candidate sorted).Perm (candidate :: sorted) := by
  induction sorted with
  | nil => exact List.Perm.refl _
  | cons p ps ih =>
    rw [shiftInsert]
    split
    · exact (ih.cons p).trans (.swap candidate p ps)
    · exact List.Perm.refl _

theorem sortPmMap_perm (pmMap : List PmSegment) : (sortPmMap pmMap).Perm pmMap := by
  suffices h : ∀ sorted, (pmMap.foldl (fun sorted candidate => shiftInsert candidate sorted)
      sorted).Perm (pmMap ++ sorted) by
    refine (List.reverse_perm _).trans ?_
    simpa using h []
  induction pmMap with
  | nil => exact fun _ => List.Perm.refl _
  | cons c pmMap ih =>
    intro sorted
    rw [List.foldl_cons]
    refine (ih _).trans ?_
    exact (List.Perm.append_left pmMap (shiftInsert_perm c sorted)).trans List.perm_middle

theorem shiftInsert_sorted (candidate : PmSegment) {sorted : List PmSegment}
    (h : sorted.Pairwise fun a b => b.start.toNat ≤ a.start.toNat) :
    (shiftInsert candidate sorted).Pairwise fun a b => b.start.toNat ≤ a.start.toNat := by
  induction sorted with
  | nil => exact List.pairwise_singleton _ _
  | cons p ps ih =>
    obtain ⟨hp, hps⟩ := List.pairwise_cons.mp h
    rw [shiftInsert]
    split_ifs with hlt
    · refine List.pairwise_cons.mpr ⟨fun b hb => ?_, ih hps⟩
      rcases List.mem_cons.mp ((shiftInsert_perm candidate ps).mem_iff.mp hb) with rfl | hb
      · exact (BitVec.lt_def.mp hlt).le
      · exact hp b hb
    · have hle : p.start.toNat ≤ candidate.start.toNat := BitVec.not_lt.mp hlt
      refine List.pairwise_cons.mpr ⟨fun b hb => ?_, h⟩
      rcases List.mem_cons.mp hb with rfl | hb
      · exact hle
      · exact (hp b hb).trans hle

/-- After sorting no segment starts before the one in front of it. -/
theorem sortPmMap_sorted (pmMap : List PmSegment) :
    (sortPmMap pmMap).Pairwise fun a b => a.start.toNat ≤ b.start.toNat := by
  suffices h : ∀ sorted : List PmSegment,
      (sorted.Pairwise fun a b => b.start.toNat ≤ a.start.toNat) →
      (pmMap.foldl (fun sorted candidate => shiftInsert candidate sorted) sorted).Pairwise
        fun a b => b.start.toNat ≤ a.start.toNat from
    List.pairwise_reverse.mpr (h [] List.Pairwise.nil)
  induction pmMap with
  | nil => exact fun _ h => h
  | cons c pmMap ih => exact fun _ h => ih _ (shiftInsert_sorted c h)

/-- Sorting leaves segments alone that are in order. -/
theorem sortPmMap_eq_self {pmMap : List PmSegment}
    (h : pmMap.Pairwise fun a b => a.start.toNat ≤ b.start.toNat) : sortPmMap pmMap = pmMap := by
  rw [sortPmMap, ← List.reverse_eq_iff.symm]
  induction pmMap using List.reverseRecOn with
  | nil => rfl
  | append_singleton pmMap c ih =>
    obtain ⟨hpre, -, hc⟩ := List.pairwise_append.mp h
    rw [List.foldl_append, List.foldl_cons, List.foldl_nil, ih hpre, List.reverse_append]
    cases hrev : pmMap.reverse with
    | nil => rfl
    | cons p ps =>
      have hp : p ∈ pmMap := List.mem_reverse.mp (by rw [hrev]; simp)
      have hle := hc p hp c (by simp)
      rw [shiftInsert, if_neg (by rw [gt_iff_lt, BitVec.lt_def]; omega)]
      rfl

end Memtest
