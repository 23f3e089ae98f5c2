import Memtest.Pmem.EfiMap
import Memtest.Pmem.PmMapSpec
import Mathlib.Data.List.Pairwise

/-!
# From the descriptors of EFI to the tested pages

The entries that `set_e820_map` stores cover the usable descriptors that the loop comes to, and
`pmem_init` makes whole pages of them. The loop comes to no descriptor behind the one with which
there are `E820_MAP_SIZE` entries, although it could be merged into the last entry. What has to be
tested is tested if and only if there is nothing usable among these (`setE820Map_tested_iff`).
-/

namespace Memtest

open Overlay

/-! ### Entries in whole pages -/

/-- Every cut of an overlay is at an end of one of its spans. -/
theorem exists_end_of_isCut {l : List Span} {x : ℕ} (h : IsCut l x) :
    ∃ s ∈ l, x = s.lo ∨ x = s.hi := by
  by_contra hnone
  push Not at hnone
  refine h ⟨?_, ?_⟩
  · refine congrArg (fun l => (List.map Span.value l).foldr max 0)
      (List.filter_congr fun s hs => ?_)
    have hne := hnone s hs
    simp only [decide_eq_decide]
    omega
  · refine congrArg (fun l => (List.map Span.value l).foldr max 0)
      (List.filter_congr fun s hs => ?_)
    have hne := hnone s hs
    simp only [decide_eq_decide]
    omega

/-- The entries are usable and consist of whole pages, none reaches the end of the address space,
and no two overlap. -/
structure UsablePages (e820Map : List E820Entry) : Prop where
  usable : ∀ e ∈ e820Map, e.IsUsable
  aligned_lo : ∀ e ∈ e820Map, pageSize ∣ e.span.lo
  aligned_hi : ∀ e ∈ e820Map, pageSize ∣ e.span.hi
  hi_lt : ∀ e ∈ e820Map, e.span.hi < 2 ^ 64
  disjoint : e820Map.Pairwise fun a b => ∀ x, a.Contains x → ¬b.Contains x

section

variable {e820Map : List E820Entry}

theorem UsablePages.wraps (h : UsablePages e820Map) : ∀ e ∈ e820Map, e.wraps = false := by
  intro e he
  have hhi := h.hi_lt e he
  rw [E820Entry.span_hi] at hhi
  simp only [E820Entry.wraps, decide_eq_false_iff_not, BitVec.not_lt, BitVec.le_def,
    BitVec.toNat_add]
  omega

theorem UsablePages.sublist {l : List E820Entry} (h : UsablePages e820Map)
    (hl : l.Sublist e820Map) : UsablePages l :=
  ⟨fun e he => h.usable e (hl.subset he), fun e he => h.aligned_lo e (hl.subset he),
    fun e he => h.aligned_hi e (hl.subset he), fun e he => h.hi_lt e (hl.subset he),
    h.disjoint.sublist hl⟩

/-- One more entry that overlaps none. -/
theorem UsablePages.concat (h : UsablePages e820Map) {e : E820Entry} (husable : e.IsUsable)
    (hlo : pageSize ∣ e.span.lo) (hhi : pageSize ∣ e.span.hi) (hlt : e.span.hi < 2 ^ 64)
    (hapart : ∀ e' ∈ e820Map, ∀ x, e'.Contains x → ¬e.Contains x) :
    UsablePages (e820Map ++ [e]) := by
  have hall : ∀ {P : E820Entry → Prop}, (∀ e' ∈ e820Map, P e') → P e →
      ∀ e' ∈ e820Map ++ [e], P e' := fun hold hnew e' he' =>
    (List.mem_append.mp he').elim (hold e') fun he' => List.mem_singleton.mp he' ▸ hnew
  refine ⟨hall h.usable husable, hall h.aligned_lo hlo, hall h.aligned_hi hhi, hall h.hi_lt hlt,
    List.pairwise_append.mpr ⟨h.disjoint, List.pairwise_singleton _ _, fun e' he' b hb => ?_⟩⟩
  rw [List.mem_singleton.mp hb]
  exact hapart e' he'

/-- The cuts are at page boundaries. -/
theorem UsablePages.dvd_of_isCut (h : UsablePages e820Map) {x : ℕ} (hx : IsCut (spans e820Map) x) :
    pageSize ∣ x := by
  obtain ⟨s, hs, heq⟩ := exists_end_of_isCut hx
  obtain ⟨e, he, rfl⟩ := List.mem_map.mp hs
  rcases heq with rfl | rfl
  · exact h.aligned_lo e he
  · exact h.aligned_hi e he

/-- Entries that do not overlap have one type at an address. -/
theorem UsablePages.type_eq (h : UsablePages e820Map) {a b : E820Entry} (ha : a ∈ e820Map)
    (hb : b ∈ e820Map) {x : ℕ} (hax : a.Contains x) (hbx : b.Contains x) : a.type = b.type := by
  by_contra hne
  have : Std.Symm fun a b : E820Entry => ∀ x, a.Contains x → ¬b.Contains x :=
    ⟨fun a b hab x hb ha => hab x ha hb⟩
  exact h.disjoint.forall ha hb (fun heq => hne (heq ▸ rfl)) x hax hbx

/-- A piece begins where an entry begins. -/
theorem UsablePages.exists_lo_eq (h : UsablePages e820Map) {lo hi v : ℕ}
    (hp : IsPiece (spans e820Map) lo hi v) : ∃ e ∈ e820Map, e.span.lo = lo := by
  by_contra hnone
  push Not at hnone
  obtain ⟨s, hs, hin, hv⟩ := exists_of_top_ne_zero (hp.valueAt_lo ▸ hp.value_ne)
  obtain ⟨e, he, rfl⟩ := List.mem_map.mp hs
  have hv : e.type = v := hv.trans hp.valueAt_lo
  have hin : e.span.lo ≤ lo ∧ lo < e.span.hi := of_decide_eq_true hin
  have hlt : e.span.lo < lo := Nat.lt_of_le_of_ne hin.1 (hnone e he)
  -- the entries that touch this point contain the address below it, as this one does
  have hnear : valueNear (spans e820Map) lo ≤ v := by
    refine top_le fun s' hs' hin' => ?_
    obtain ⟨e', he', rfl⟩ := List.mem_map.mp hs'
    have hin' : e'.span.lo ≤ lo ∧ lo ≤ e'.span.hi := of_decide_eq_true hin'
    have hlt' : e'.span.lo < lo := Nat.lt_of_le_of_ne hin'.1 (hnone e' he')
    have htype : e'.type = e.type :=
      h.type_eq he' he (x := lo - 1) ⟨by omega, by omega⟩ ⟨by omega, by omega⟩
    exact (htype.trans hv).le
  have hbelow : v ≤ valueBelow (spans e820Map) lo := by
    have hle := value_le_top (p := fun s : Span => s.lo < lo ∧ lo ≤ s.hi) hs
      (decide_eq_true ⟨hlt, hin.2.le⟩)
    exact hv ▸ hle
  have hat := valueAt_le_valueNear (spans e820Map) lo
  have hbn : valueBelow (spans e820Map) lo ≤ valueNear (spans e820Map) lo :=
    top_mono fun s _ hs => decide_eq_true ⟨(of_decide_eq_true hs).1.le, (of_decide_eq_true hs).2⟩
  have hva := hp.valueAt_lo
  exact hp.cut_lo ⟨by omega, by omega⟩

/-- There are no more pieces than entries. -/
theorem UsablePages.length_sanitizedPieces_le (h : UsablePages e820Map) :
    (sanitizedPieces e820Map).length ≤ e820Map.length := by
  have hnodup : ((sanitizedPieces e820Map).map fun e => e.span.lo).Nodup :=
    List.pairwise_map.mpr ((pairwise_lo_sanitizedPieces h.wraps).imp fun hlt => hlt.ne)
  have hsub : ((sanitizedPieces e820Map).map fun e => e.span.lo) ⊆
      e820Map.map fun e => e.span.lo := by
    intro lo hlo
    obtain ⟨e, he, rfl⟩ := List.mem_map.mp hlo
    obtain ⟨e', he', heq⟩ := h.exists_lo_eq (isPiece_of_mem h.wraps he)
    exact List.mem_map.mpr ⟨e', he', heq⟩
  simpa using (List.subperm_of_subset hnodup hsub).length_le

/-- None of the pieces is left out. -/
theorem UsablePages.sanitizeE820Map_eq (h : UsablePages e820Map)
    (hlen : e820Map.length ≤ e820MapSize) : sanitizeE820Map e820Map = sanitizedPieces e820Map := by
  rw [sanitizeE820Map_eq_take h.wraps]
  exact List.take_of_length_le (h.length_sanitizedPieces_le.trans hlen)

theorem UsablePages.usableAt_iff (h : UsablePages e820Map) {x : ℕ} :
    IsUsableAt e820Map x ↔ ∃ e ∈ e820Map, e.Contains x := by
  refine ⟨fun ⟨e, he, _, hc, _⟩ => ⟨e, he, hc⟩, fun ⟨e, he, hc⟩ => ⟨e, he, h.usable e he, hc, ?_⟩⟩
  have hin : e.span.lo ≤ x ∧ x < e.span.hi := hc
  have hmem : e.span ∈ spans e820Map := List.mem_map_of_mem he
  refine le_antisymm (value_le_top hmem (decide_eq_true hin)) ?_
  refine top_le fun s hs hin' => ?_
  obtain ⟨e', he', rfl⟩ := List.mem_map.mp hs
  have hin' : e'.span.lo ≤ x ∧ x < e'.span.hi := of_decide_eq_true hin'
  exact (h.type_eq he' he hin' hc).le

/-- Segments that are not inverted keep all of their pages when they are merged. -/
theorem exists_contains_mergeSegments {raws : List PmSegment} (hchain : Chain raws)
    (hord : ∀ r ∈ raws, r.start.toNat ≤ r.stop.toNat) {page : ℕ} {r : PmSegment} (hr : r ∈ raws)
    (hc : r.Contains page) : ∃ seg ∈ mergeSegments raws, seg.Contains page := by
  have hsegs : ∀ raws : List PmSegment, (∀ r ∈ raws, r.start.toNat ≤ r.stop.toNat) →
      ∀ seg ∈ mergeSegments raws, seg.start.toNat ≤ seg.stop.toNat := by
    intro raws
    induction raws using List.reverseRecOn with
    | nil => exact fun _ _ hseg => nomatch hseg
    | append_singleton raws r ih =>
      intro hord
      rw [mergeSegments_append_singleton]
      have hold := ih fun r' hr' => hord r' (List.mem_append_left _ hr')
      have hnew := hord r (List.mem_append_right _ List.mem_cons_self)
      refine forall_mem_addSegment hold hnew fun last hlast hmeet => ?_
      exact (hold last hlast).trans (hmeet ▸ hnew)
  induction raws using List.reverseRecOn with
  | nil => exact nomatch hr
  | append_singleton raws r' ih =>
    have hord' : ∀ r ∈ raws, r.start.toNat ≤ r.stop.toNat :=
      fun r hr => hord r (List.mem_append_left _ hr)
    rw [mergeSegments_append_singleton]
    rcases List.mem_append.mp hr with hr | hr
    · exact hchain.contains_addSegment (ih hchain.of_append hord' hr)
    · obtain rfl := List.mem_singleton.mp hr
      rcases addSegment_cases (mergeSegments raws) r with ⟨init, last, hpm, hmeet, hadd⟩ | ⟨-, hadd⟩
      · have hlast := hsegs raws hord' last (by simp [hpm])
        rw [hadd]
        exact ⟨⟨last.start, r.stop⟩, by simp, hlast.trans (hmeet ▸ hc.1), hc.2⟩
      · rw [hadd]
        exact ⟨r, by simp, hc⟩

/-- Every tested page is a page of an entry. -/
theorem UsablePages.exists_contains_of_tested (h : UsablePages e820Map)
    (hlen : e820Map.length ≤ e820MapSize) {seg : PmSegment} (hseg : seg ∈ (pmemInit e820Map).pmMap)
    {page : ℕ} (hc : seg.Contains page) : ∃ e ∈ e820Map, e.Contains (page * pageSize) := by
  have hboot : bootE820Map e820Map = e820Map := List.take_of_length_le hlen
  have hsafe : RoundsSafely (bootE820Map e820Map) := by
    rw [hboot]
    refine .inr fun lo hi type hp => .inr ?_
    obtain ⟨page, rfl⟩ := h.dvd_of_isCut hp.isPiece.cut_lo
    exact ⟨page, (Nat.mul_comm _ _).le, (Nat.mul_comm page _).le.trans hp.isPiece.lt.le⟩
  have husable := (wellFormed_of_roundsSafely hsafe).usable seg hseg page hc (page * pageSize)
    (Nat.mul_div_cancel _ (by decide))
  rw [hboot] at husable
  exact h.usableAt_iff.mp husable

/-- Every page of an entry is tested, unless it is one between 640KB and 1MB. -/
theorem UsablePages.exists_tested (h : UsablePages e820Map) (hlen : e820Map.length ≤ e820MapSize)
    {e : E820Entry} (he : e ∈ e820Map) {page : ℕ} (hc : e.Contains (page * pageSize))
    (hout : page < 0xa0 ∨ 0x100 ≤ page) : ∃ seg ∈ (pmemInit e820Map).pmMap, seg.Contains page := by
  have hboot : bootE820Map e820Map = e820Map := List.take_of_length_le hlen
  have horder := inOrder_sanitizeE820Map h.wraps
  have husable := h.usableAt_iff.mpr ⟨e, he, hc⟩
  rw [isUsableAt_iff] at husable
  obtain ⟨p, hp, hpc⟩ := exists_mem_of_typeAt_ne h.wraps (x := page * pageSize)
    (by rcases husable with hu | hu <;> rw [hu] <;> decide)
  have hpiece := isPiece_of_mem h.wraps hp
  have hpu : p.IsUsable := by
    have htype : p.type = _ := (hpiece.valueAt_eq hpc.1 hpc.2).symm
    rwa [E820Entry.IsUsable, htype]
  rw [← h.sanitizeE820Map_eq hlen] at hp
  have hhi := horder.hi_lt p hp
  obtain ⟨n, hn⟩ := h.dvd_of_isCut hpiece.cut_lo
  obtain ⟨m, hm⟩ := h.dvd_of_isCut hpiece.cut_hi
  obtain ⟨hclo, hchi⟩ := hpc
  simp only [show pageSize = 4096 from rfl] at hn hm hclo hchi
  have hnone : rawSegment p ≠ none := fun hnone => by
    rcases (rawSegment_eq_none_iff (horder.lt p hp) hhi).mp hnone with hnot | hin
    · exact hnot hpu
    · simp only [InHole, reservedMemStart, reservedMemEnd, BitVec.toNat_ofNat] at hin
      omega
  obtain ⟨r, hr⟩ := Option.ne_none_iff_exists'.mp hnone
  obtain ⟨hstart, hstop⟩ := rawSegment_spec hhi hr
  have hrc : r.Contains page := by
    rw [PmSegment.Contains, hstart, hstop]
    simp only [clipLo, clipHi]
    split <;> split <;> omega
  have hord : ∀ r ∈ (sanitizeE820Map e820Map).filterMap rawSegment,
      r.start.toNat ≤ r.stop.toNat := by
    intro r' hr'
    obtain ⟨p', hp', hraw'⟩ := List.mem_filterMap.mp hr'
    have hpiece' := isPiece_of_mem h.wraps (h.sanitizeE820Map_eq hlen ▸ hp')
    obtain ⟨n', hn'⟩ := h.dvd_of_isCut hpiece'.cut_lo
    exact (rawSegment_of_touchesPage (horder.lt p' hp') (horder.hi_lt p' hp') hraw'
      ⟨n', by rw [hn', Nat.mul_comm], by rw [Nat.mul_comm, ← hn']; exact hpiece'.lt.le⟩).1
  obtain ⟨seg, hseg, hsc⟩ := exists_contains_mergeSegments (chain_of_inOrder horder) hord
    (List.mem_filterMap.mpr ⟨p, hp, hr⟩) hrc
  exact ⟨seg, mem_pmemInit.mpr (hboot.symm ▸ hseg), hsc⟩

end

/-! ### Merging descriptors -/

/-- An address lies in the region of a descriptor. -/
def EfiMemoryDesc.Contains (d : EfiMemoryDesc) (x : ℕ) : Prop :=
  d.physAddr.toNat ≤ x ∧ x < d.physAddr.toNat + d.numPages.toNat * pageSize

/-- The memory of the descriptor is tested: that of the loader and of the boot services,
conventional memory, and ACPI memory that can be reclaimed. All other types get no entry. -/
def EfiMemoryDesc.IsUsable (d : EfiMemoryDesc) : Prop := d.e820Type ≠ none

instance (d : EfiMemoryDesc) : Decidable d.IsUsable := inferInstanceAs (Decidable (_ ≠ _))

/-- The regions are page-aligned, do not wrap round, and are pairwise disjoint, as the firmware
interface demands of a memory map. The order is arbitrary. -/
structure ValidDescs (descs : List EfiMemoryDesc) : Prop where
  aligned : ∀ d ∈ descs, pageSize ∣ d.physAddr.toNat
  lt : ∀ d ∈ descs, d.physAddr.toNat + d.numPages.toNat * pageSize < 2 ^ 64
  disjoint : descs.Pairwise fun a b => ∀ x, a.Contains x → ¬b.Contains x

/-- The entries are whole pages, and cover the usable descriptors. -/
structure Describes (descs : List EfiMemoryDesc) (e820Map : List E820Entry) : Prop
    extends UsablePages e820Map where
  contains_iff : ∀ x, (∃ e ∈ e820Map, e.Contains x) ↔ ∃ d ∈ descs, d.IsUsable ∧ d.Contains x

theorem describes_nil : Describes [] [] :=
  ⟨⟨nofun, nofun, nofun, nofun, .nil⟩, fun _ => iff_of_false (fun ⟨_, h, _⟩ => nomatch h)
    fun ⟨_, h, _⟩ => nomatch h⟩

section

variable {descs : List EfiMemoryDesc} {e820Map : List E820Entry} {d : EfiMemoryDesc}

/-- The size of a region that does not wrap. -/
theorem EfiMemoryDesc.toNat_size
    (hlt : d.physAddr.toNat + d.numPages.toNat * pageSize < 2 ^ 64) :
    d.size.toNat = d.numPages.toNat * pageSize := by
  rw [size, BitVec.toNat_shiftLeft, Nat.shiftLeft_eq]
  exact Nat.mod_eq_of_lt (by
    rw [show pageSize = 2 ^ pageShift from rfl] at hlt
    omega)

theorem EfiMemoryDesc.e820Type_usable {type : ℕ} (h : d.e820Type = some type) :
    type = e820Ram ∨ type = e820Acpi := by
  unfold e820Type at h
  split_ifs at h
  · exact .inr (Option.some.inj h).symm
  · exact .inl (Option.some.inj h).symm

/-- What a descriptor does: nothing, or it makes the last entry longer, or there is one more. -/
theorem addDesc_cases (e820Map : List E820Entry) (d : EfiMemoryDesc) :
    (¬d.IsUsable ∧ addDesc e820Map d = e820Map) ∨ ∃ type, d.e820Type = some type ∧
      ((∃ init prev, e820Map = init ++ [prev] ∧ prev.type = type ∧
          prev.addr + prev.size = d.physAddr ∧
          addDesc e820Map d = init ++ [{ prev with size := prev.size + d.size }]) ∨
        addDesc e820Map d = e820Map ++ [⟨d.physAddr, d.size, type⟩]) := by
  unfold addDesc
  rcases htype : d.e820Type with - | type
  · exact .inl ⟨not_not_intro htype, rfl⟩
  refine .inr ⟨type, rfl, ?_⟩
  rcases List.eq_nil_or_concat e820Map with rfl | ⟨init, prev, rfl⟩
  · exact .inr rfl
  · simp only [List.concat_eq_append, List.getLast?_concat, List.dropLast_concat]
    split_ifs with hmeet
    · exact .inl ⟨init, prev, rfl, hmeet.1, hmeet.2, rfl⟩
    · exact .inr rfl

/-- One more descriptor is covered. -/
theorem Describes.addDesc (h : Describes descs e820Map) (hvalid : ValidDescs (descs ++ [d])) :
    Describes (descs ++ [d]) (addDesc e820Map d) := by
  have hmem : d ∈ descs ++ [d] := List.mem_append_right _ List.mem_cons_self
  have hlt := hvalid.lt d hmem
  have haligned := hvalid.aligned d hmem
  have hsize := EfiMemoryDesc.toNat_size hlt
  have hapart : ∀ d' ∈ descs, ∀ x, d'.Contains x → ¬d.Contains x := fun d' hd' =>
    (List.pairwise_append.mp hvalid.disjoint).2.2 d' hd' d List.mem_cons_self
  -- an entry and the descriptor have no address in common
  have hother : ∀ e ∈ e820Map, ∀ x, e.Contains x → ¬d.Contains x := by
    intro e he x hc
    obtain ⟨d', hd', -, hc'⟩ := (h.contains_iff x).mp ⟨e, he, hc⟩
    exact hapart d' hd' x hc'
  have hsplit : ∀ x, (∃ d' ∈ descs ++ [d], d'.IsUsable ∧ d'.Contains x) ↔
      (∃ e ∈ e820Map, e.Contains x) ∨ (d.IsUsable ∧ d.Contains x) := by
    intro x
    rw [h.contains_iff x]
    simp only [List.mem_append, List.mem_singleton, or_and_right, exists_or, exists_eq_left]
  rcases addDesc_cases e820Map d with ⟨hnot, heq⟩ | ⟨type, htype, hcases⟩
  · rw [heq]
    refine ⟨h.toUsablePages, fun x => ?_⟩
    rw [hsplit]
    exact ⟨.inl, fun hx => hx.resolve_right fun hd => hnot hd.1⟩
  have husable : d.IsUsable := fun hnone => nomatch htype.symm.trans hnone
  rcases hcases with ⟨init, prev, rfl, hprev, hmeet, heq⟩ | heq
  · -- the last entry gets the region of the descriptor in addition to its own
    have hlast : prev ∈ init ++ [prev] := List.mem_append_right _ List.mem_cons_self
    have hprevLt := h.hi_lt prev hlast
    rw [E820Entry.span_hi] at hprevLt
    have hstart : prev.addr.toNat + prev.size.toNat = d.physAddr.toNat := by
      rw [← hmeet, BitVec.toNat_add, Nat.mod_eq_of_lt hprevLt]
    set e : E820Entry := { prev with size := prev.size + d.size } with he
    have hesize : e.size.toNat = prev.size.toNat + d.size.toNat := by
      rw [he, BitVec.toNat_add, Nat.mod_eq_of_lt (by omega)]
    have hhi : e.span.hi = d.physAddr.toNat + d.numPages.toNat * pageSize := by
      rw [E820Entry.span_hi, hesize, hsize, ← hstart]
      exact (Nat.add_assoc _ _ _).symm
    have hec : ∀ x, e.Contains x ↔ prev.Contains x ∨ d.Contains x := by
      intro x
      have hlo : e.span.lo = prev.addr.toNat := rfl
      have hplo : prev.span.lo = prev.addr.toNat := rfl
      have hphi : prev.span.hi = prev.addr.toNat + prev.size.toNat := rfl
      simp only [E820Entry.Contains, EfiMemoryDesc.Contains, hlo, hhi, hplo, hphi]
      omega
    have hinit : ∀ e' ∈ init, ∀ x, e'.Contains x → ¬e.Contains x := by
      intro e' he' x hc hx
      rcases (hec x).mp hx with hp | hd
      · exact (List.pairwise_append.mp h.disjoint).2.2 e' he' prev List.mem_cons_self x hc hp
      · exact hother e' (List.mem_append_left _ he') x hc hd
    rw [heq]
    refine ⟨(h.toUsablePages.sublist (List.sublist_append_left _ _)).concat
      (h.usable prev hlast) (h.aligned_lo prev hlast) ?_ (hhi ▸ hlt) hinit, fun x => ?_⟩
    · rw [hhi]
      exact Nat.dvd_add haligned (Nat.dvd_mul_left _ _)
    · rw [hsplit]
      simp only [List.mem_append, List.mem_singleton, or_and_right, exists_or, exists_eq_left,
        hec, or_assoc, husable, true_and]
  · -- there is an entry for the descriptor
    set e : E820Entry := ⟨d.physAddr, d.size, type⟩ with he
    have hhi : e.span.hi = d.physAddr.toNat + d.numPages.toNat * pageSize := by
      rw [E820Entry.span_hi, ← hsize]
    have hec : ∀ x, e.Contains x ↔ d.Contains x := by
      intro x
      rw [E820Entry.Contains, hhi]
      exact Iff.rfl
    rw [heq]
    refine ⟨h.toUsablePages.concat (EfiMemoryDesc.e820Type_usable htype) haligned ?_ (hhi ▸ hlt)
      (fun e' he' x hc hx => hother e' he' x hc ((hec x).mp hx)), fun x => ?_⟩
    · rw [hhi]
      exact Nat.dvd_add haligned (Nat.dvd_mul_left _ _)
    · rw [hsplit]
      simp only [List.mem_append, List.mem_singleton, or_and_right, exists_or, exists_eq_left,
        hec, husable, true_and]

/-- The merged entries of any number of descriptors. -/
theorem describes_mergeDescs (hvalid : ValidDescs descs) : Describes descs (mergeDescs descs) := by
  induction descs using List.reverseRecOn with
  | nil => exact describes_nil
  | append_singleton descs d ih =>
    have hold : ValidDescs descs :=
      ⟨fun d' hd' => hvalid.aligned d' (List.mem_append_left _ hd'),
        fun d' hd' => hvalid.lt d' (List.mem_append_left _ hd'),
        (List.pairwise_append.mp hvalid.disjoint).1⟩
    rw [mergeDescs, List.foldl_append]
    exact (ih hold).addDesc hvalid

/-- A descriptor takes away no entry. -/
theorem length_le_addDesc (e820Map : List E820Entry) (d : EfiMemoryDesc) :
    e820Map.length ≤ (addDesc e820Map d).length := by
  rcases addDesc_cases e820Map d with ⟨-, heq⟩ | ⟨_, -, ⟨init, prev, rfl, -, -, heq⟩ | heq⟩
  · rw [heq]
  · rw [heq, List.length_append, List.length_append]
    exact le_rfl
  · rw [heq, List.length_append]
    exact Nat.le_add_right _ _

theorem length_le_foldl_addDesc (e820Map : List E820Entry) (descs : List EfiMemoryDesc) :
    e820Map.length ≤ (descs.foldl addDesc e820Map).length := by
  induction descs generalizing e820Map with
  | nil => exact le_rfl
  | cons d descs ih => exact (length_le_addDesc e820Map d).trans (ih _)

/-- The loop comes to the first descriptors, and to no other when there are enough entries. -/
theorem exists_setE820MapFrom_eq (e820Map : List E820Entry) (descs : List EfiMemoryDesc) :
    ∃ n, setE820MapFrom e820Map descs = (descs.take n).foldl addDesc e820Map ∧
      ∀ i < descs.length, n ≤ i ↔
        e820MapSize ≤ ((descs.take i).foldl addDesc e820Map).length := by
  induction descs generalizing e820Map with
  | nil => exact ⟨0, rfl, fun i hi => nomatch hi⟩
  | cons d descs ih =>
    rw [setE820MapFrom]
    split_ifs with hlt
    · obtain ⟨n, heq, hiff⟩ := ih (addDesc e820Map d)
      refine ⟨n + 1, heq, fun i hi => ?_⟩
      rcases i with - | i
      · exact iff_of_false (Nat.not_succ_le_zero n) (Nat.not_le.mpr hlt)
      · rw [Nat.succ_le_succ_iff]
        exact hiff i (Nat.lt_of_succ_lt_succ hi)
    · exact ⟨0, rfl, fun i _ => iff_of_true (Nat.zero_le i)
        ((Nat.not_lt.mp hlt).trans (length_le_foldl_addDesc _ _))⟩

/-- What has to be tested is tested: every page of a usable descriptor that is not between 640KB
and 1MB, and no page that is not one of a usable descriptor. The pages between 640KB and 1MB may
be in the map or not; what keeps them out is `pmemInit_avoidsReserved_iff`. -/
def TestsDescs (descs : List EfiMemoryDesc) (pmMap : List PmSegment) : Prop :=
  (∀ d ∈ descs, d.IsUsable → ∀ page, d.Contains (page * pageSize) →
    page < 0xa0 ∨ 0x100 ≤ page → ∃ seg ∈ pmMap, seg.Contains page) ∧
  ∀ seg ∈ pmMap, ∀ page, seg.Contains page →
    ∃ d ∈ descs, d.IsUsable ∧ d.Contains (page * pageSize)

theorem ValidDescs.take (h : ValidDescs descs) (n : ℕ) : ValidDescs (descs.take n) :=
  ⟨fun d hd => h.aligned d (List.mem_of_mem_take hd), fun d hd => h.lt d (List.mem_of_mem_take hd),
    h.disjoint.sublist (List.take_sublist _ _)⟩

/-- The tested pages are those of the descriptors that the loop comes to. -/
theorem exists_tested_take (hvalid : ValidDescs descs)
    (hlen : (mergeDescs descs).length ≤ e820MapSize) :
    ∃ n, TestsDescs (descs.take n) (pmemInit (setE820Map descs)).pmMap ∧
      ∀ i < descs.length, n ≤ i ↔ e820MapSize ≤ (mergeDescs (descs.take i)).length := by
  obtain ⟨n, heq, hiff⟩ := exists_setE820MapFrom_eq [] descs
  have hdescribes : Describes (descs.take n) (setE820Map descs) := by
    rw [setE820Map, heq]
    exact describes_mergeDescs (hvalid.take n)
  have hle : (setE820Map descs).length ≤ e820MapSize := by
    have hfold := length_le_foldl_addDesc ((descs.take n).foldl addDesc []) (descs.drop n)
    rw [← List.foldl_append, List.take_append_drop] at hfold
    rw [setE820Map, heq]
    exact hfold.trans hlen
  refine ⟨n, ⟨fun d hd husable page hc hout => ?_, fun seg hseg page hc => ?_⟩, hiff⟩
  · obtain ⟨e, he, hec⟩ := (hdescribes.contains_iff _).mpr ⟨d, hd, husable, hc⟩
    exact hdescribes.exists_tested hle he hec hout
  · exact (hdescribes.contains_iff _).mp (hdescribes.exists_contains_of_tested hle hseg hc)

/-- A page of a descriptor that comes too late is not tested. -/
theorem not_testsDescs_of_late (hvalid : ValidDescs descs)
    (hlen : (mergeDescs descs).length ≤ e820MapSize) {i : ℕ} (hi : i < descs.length)
    (hlate : e820MapSize ≤ (mergeDescs (descs.take i)).length) (husable : descs[i].IsUsable)
    {page : ℕ} (hc : descs[i].Contains (page * pageSize)) (hout : page < 0xa0 ∨ 0x100 ≤ page) :
    ¬TestsDescs descs (pmemInit (setE820Map descs)).pmMap := by
  rintro ⟨hall, -⟩
  obtain ⟨n, ⟨-, hback⟩, hiff⟩ := exists_tested_take hvalid hlen
  obtain ⟨seg, hseg, hsc⟩ := hall _ (List.getElem_mem hi) husable page hc hout
  obtain ⟨d, hd, -, hdc⟩ := hback seg hseg page hsc
  obtain ⟨j, hj, rfl⟩ := List.mem_iff_getElem.mp hd
  rw [List.length_take] at hj
  have hji : j < i := (lt_of_lt_of_le hj (min_le_left _ _)).trans_le ((hiff i hi).mpr hlate)
  rw [List.getElem_take] at hdc
  exact List.pairwise_iff_getElem.mp hvalid.disjoint j i (hji.trans hi) hi hji _ hdc hc

/-- **From the descriptors to the map.** What has to be tested is tested if and only if the
descriptors that come when there are `E820_MAP_SIZE` entries are not usable, or have no pages but
some between 640KB and 1MB.

The entries without a limit are to fit into the table (`hlen`), so there is room for all that has
to be stored. The loop stops all the same where the table is full and the next descriptor only has
to be merged into its last entry. -/
theorem setE820Map_tested_iff (hvalid : ValidDescs descs)
    (hlen : (mergeDescs descs).length ≤ e820MapSize) :
    TestsDescs descs (pmemInit (setE820Map descs)).pmMap ↔
      ∀ i, ∀ hi : i < descs.length, e820MapSize ≤ (mergeDescs (descs.take i)).length →
        descs[i].IsUsable → ∀ page, descs[i].Contains (page * pageSize) →
          0xa0 ≤ page ∧ page < 0x100 := by
  constructor
  · intro htests i hi hlate husable page hc
    by_contra hout
    exact not_testsDescs_of_late hvalid hlen hi hlate husable hc (by omega) htests
  · intro hcond
    obtain ⟨n, ⟨hall, hback⟩, hiff⟩ := exists_tested_take hvalid hlen
    refine ⟨fun d hd husable page hc hout => ?_, fun seg hseg page hc => ?_⟩
    · obtain ⟨i, hi, rfl⟩ := List.mem_iff_getElem.mp hd
      rcases Nat.lt_or_ge i n with hlt | hge
      · have hmem : descs[i] ∈ descs.take n :=
          List.mem_take_iff_getElem.mpr ⟨i, lt_min hlt hi, rfl⟩
        exact hall _ hmem husable page hc hout
      · have hin := hcond i hi ((hiff i hi).mp hge) husable page hc
        omega
    · obtain ⟨d, hd, husable, hdc⟩ := hback seg hseg page hc
      exact ⟨d, List.mem_of_mem_take hd, husable, hdc⟩

end

/-- Regions that ascend are disjoint. -/
theorem validDescs_of_ascending {descs : List EfiMemoryDesc}
    (haligned : ∀ d ∈ descs, pageSize ∣ d.physAddr.toNat)
    (hlt : ∀ d ∈ descs, d.physAddr.toNat + d.numPages.toNat * pageSize < 2 ^ 64)
    (hasc : descs.Pairwise fun a b =>
      a.physAddr.toNat + a.numPages.toNat * pageSize ≤ b.physAddr.toNat) : ValidDescs descs :=
  ⟨haligned, hlt, hasc.imp fun hab _ ha hb => absurd (ha.2.trans_le (hab.trans hb.1)) (lt_irrefl _)⟩

theorem setE820Map_tested_mergedRegion :
    TestsDescs [⟨1, 0x100000#64, 16#64⟩, ⟨7, 0x110000#64, 1#64⟩, ⟨5, 0x111000#64, 1#64⟩]
      (pmemInit (setE820Map
        [⟨1, 0x100000#64, 16#64⟩, ⟨7, 0x110000#64, 1#64⟩, ⟨5, 0x111000#64, 1#64⟩])).pmMap :=
  (setE820Map_tested_iff (validDescs_of_ascending (by decide) (by decide) (by decide))
    (by decide)).mpr (by
      intro i hi hlate
      rcases i with - | - | - | i
      · exact absurd hlate (by decide)
      · exact absurd hlate (by decide)
      · exact absurd hlate (by decide)
      · exact absurd hi (by simp))

/-- 128 regions of one page with gaps between them, and one more page behind the last. -/
def fullDescs : List EfiMemoryDesc :=
  (List.range 128).map (fun i => ⟨7, BitVec.ofNat 64 (0x1000000 + i * 0x2000), 1#64⟩) ++
    [⟨7, 0x10ff000#64, 1#64⟩]

/-- The last page, which could be merged into the last entry, is not tested. -/
theorem setE820Map_not_tested_fullDescs :
    ValidDescs fullDescs ∧ (mergeDescs fullDescs).length ≤ e820MapSize ∧
      ¬TestsDescs fullDescs (pmemInit (setE820Map fullDescs)).pmMap := by
  have hvalid : ValidDescs fullDescs :=
    validDescs_of_ascending (by decide +kernel) (by decide +kernel) (by decide +kernel)
  have hlen : (mergeDescs fullDescs).length ≤ e820MapSize := by decide +kernel
  obtain ⟨h128, hlast⟩ : ∃ h : 128 < fullDescs.length,
      fullDescs[128] = ⟨7, 0x10ff000#64, 1#64⟩ :=
    List.getElem?_eq_some_iff.mp (by decide)
  have hc : fullDescs[128].Contains (0x10ff * pageSize) := by
    rw [hlast]
    exact ⟨by decide, by decide⟩
  refine ⟨hvalid, hlen, not_testsDescs_of_late hvalid hlen h128 (by decide +kernel) ?_ hc
    (.inr (by decide))⟩
  rw [hlast]
  decide

end Memtest
