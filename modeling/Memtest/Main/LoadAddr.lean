import Memtest.Main.Footprint
import Memtest.Pmem.Segments

/-!
# Where the program is moved to

`set_load_addr` leaves the program where it is if that is a good place. Otherwise it takes the first
segment of the memory map with room for the program, from the start of the segment or from the lower
limit on. It compares the start of the place with the upper limit, and not its end. In a sorted map
an earlier segment with room has an earlier place, so the place taken ends within the limits
whenever any such place does. Where there is none, a place that begins within them is as good to
`set_load_addr`.

The addresses of a segment are its page numbers, shifted in a `uintptr_t`. On a 32-bit build those
from 4GB on wrap, so that a segment there looks like one in low memory. In a sorted map such
segments come last, and the search gets to them if no segment below 4GB has room. The test whether
the program can stay looks at all of them.
-/

namespace Memtest

namespace Program

variable {arch : Arch} {p : Program arch} {pmMap : List PmSegment} {lower upper : ℕ}

/-- A range of memory lies in one segment of the map. -/
def InSegment (pmMap : List PmSegment) (size addr : ℕ) : Prop :=
  ∃ seg ∈ pmMap, seg.start.toNat * pageSize ≤ addr ∧ addr + size ≤ seg.stop.toNat * pageSize

/-- A place for a program of some size: within the limits and in one segment. It is a statement
about the addresses themselves, not about those in a `uintptr_t`. -/
def IsPlace (pmMap : List PmSegment) (size lower upper addr : ℕ) : Prop :=
  lower ≤ addr ∧ addr + size ≤ upper ∧ InSegment pmMap size addr

/-- What `set_load_addr` is for: it gives out places only, and it finds one if there is one at the
start of a segment or at the lower limit. Places further up in a segment are not looked for, as
the code does not either. -/
structure Relocates (p : Program arch) (pmMap : List PmSegment) (lower upper : ℕ) : Prop where
  sound : ∀ addr, p.setLoadAddr pmMap lower upper = some addr →
    IsPlace pmMap p.programSize lower upper addr
  complete : (∃ addr, (addr = lower ∨ ∃ seg ∈ pmMap, addr = seg.start.toNat * pageSize) ∧
    IsPlace pmMap p.programSize lower upper addr) → (p.setLoadAddr pmMap lower upper).isSome

/-- The first test of `set_load_addr` holds: the program is within the limits, and in a segment as
far as the addresses in a `uintptr_t` tell. -/
def Stays (p : Program arch) (pmMap : List PmSegment) (lower upper : ℕ) : Prop :=
  lower ≤ p.start ∧ p.start + p.programSize ≤ upper ∧
    addrRangeIsUsable arch pmMap p.start p.programSize = true

/-- Where `set_load_addr` tries to put the program in a segment. -/
def placeIn (arch : Arch) (lower : ℕ) (seg : PmSegment) : ℕ :=
  max (pageAddress arch seg.start.toNat) lower

/-- The program ends there before the segment does, in the arithmetic of `uintptr_t`. -/
def Fits (p : Program arch) (lower : ℕ) (seg : PmSegment) : Prop :=
  (placeIn arch lower seg + p.programSize) % 2 ^ arch.bits ≤ pageAddress arch seg.stop.toNat

/-- The segment has room for the program there, in the same arithmetic. -/
def HasRoom (p : Program arch) (lower : ℕ) (seg : PmSegment) : Prop :=
  p.Fits lower seg ∧ lower ≤ (placeIn arch lower seg + p.programSize) % 2 ^ arch.bits

/-- The search ends at the segment, since the place in it is beyond the upper limit. -/
def EndsSearch (p : Program arch) (lower upper : ℕ) (seg : PmSegment) : Prop :=
  p.Fits lower seg ∧ upper ≤ placeIn arch lower seg

instance {seg : PmSegment} : Decidable (p.HasRoom lower seg) :=
  inferInstanceAs (Decidable (_ ≤ _ ∧ _ ≤ _))

instance {seg : PmSegment} : Decidable (p.EndsSearch lower upper seg) :=
  inferInstanceAs (Decidable (_ ≤ _ ∧ _ ≤ _))

/-- The segments before the one at which the search ends, which is the first that has room and
begins too high. -/
def segmentsTried (p : Program arch) (pmMap : List PmSegment) (lower upper : ℕ) :
    List PmSegment :=
  pmMap.takeWhile fun seg => !decide (p.EndsSearch lower upper seg)

/-- The segment begins at an address that a pointer can hold. On a 64-bit build all segments do. -/
def Near (arch : Arch) (seg : PmSegment) : Prop := seg.start.toNat * pageSize < 2 ^ arch.bits

/-- The segment begins at such an address, and its end wraps, so that it looks as if it ended in
low memory. -/
def Crosses (arch : Arch) (seg : PmSegment) : Prop :=
  Near arch seg ∧ 2 ^ arch.bits ≤ seg.stop.toNat * pageSize

/-- Wrapped addresses do no harm where no segment has room whose start is a real address. Either
no other segment is taken, and none that crosses the end of the addresses has room within the
limits. Or the first one that looks as if it had room wraps into a segment that crosses the end,
and ends within the limits there. -/
def WrapsWell (p : Program arch) (pmMap : List PmSegment) (lower upper : ℕ) : Prop :=
  match (p.segmentsTried pmMap lower upper).find? fun seg => decide (p.HasRoom lower seg) with
  | none => ∀ seg ∈ pmMap, Crosses arch seg → upper < placeIn arch lower seg + p.programSize
  | some first => placeIn arch lower first + p.programSize ≤ upper ∧
      ∃ seg ∈ pmMap, Crosses arch seg ∧ seg.start.toNat * pageSize ≤ placeIn arch lower first

/-! ### The search -/

theorem pageAddress_eq {page : ℕ} (h : page * pageSize < 2 ^ arch.bits) :
    pageAddress arch page = page * pageSize := by
  have hshift : page <<< pageShift = page * pageSize := Nat.shiftLeft_eq page 12
  rw [pageAddress, hshift, Nat.mod_eq_of_lt h]

theorem pageAddress_le (arch : Arch) (page : ℕ) : pageAddress arch page ≤ page * pageSize := by
  have hshift : page <<< pageShift = page * pageSize := Nat.shiftLeft_eq page 12
  rw [pageAddress, hshift]
  exact Nat.mod_le _ _

theorem Near.placeIn_eq {seg : PmSegment} (h : Near arch seg) :
    placeIn arch lower seg = max (seg.start.toNat * pageSize) lower := by
  rw [placeIn, pageAddress_eq h]

theorem Near.le_placeIn {seg : PmSegment} (h : Near arch seg) :
    seg.start.toNat * pageSize ≤ placeIn arch lower seg := by
  rw [h.placeIn_eq]
  exact le_max_left _ _

theorem le_placeIn (seg : PmSegment) : lower ≤ placeIn arch lower seg := le_max_right _ _

theorem findLoadAddr_cons (p : Program arch) (seg : PmSegment) :
    findLoadAddr arch p.programSize lower upper (seg :: pmMap) =
      if p.EndsSearch lower upper seg then none
      else if p.HasRoom lower seg then some (placeIn arch lower seg)
      else findLoadAddr arch p.programSize lower upper pmMap := by
  have hplace : (if pageAddress arch seg.start.toNat < lower then lower
      else pageAddress arch seg.start.toNat) = placeIn arch lower seg := by
    rw [placeIn]
    split <;> omega
  rw [findLoadAddr, hplace]
  by_cases hfits : p.Fits lower seg
  · rw [if_neg (Nat.not_lt.mpr hfits)]
    by_cases hupper : upper ≤ placeIn arch lower seg
    · rw [if_pos hupper, if_pos ⟨hfits, hupper⟩]
    · have hgoes : ¬p.EndsSearch lower upper seg := fun h => hupper h.2
      rw [if_neg hupper, if_neg hgoes]
      by_cases hend : lower ≤ (placeIn arch lower seg + p.programSize) % 2 ^ arch.bits
      · rw [if_neg (Nat.not_lt.mpr hend), if_pos ⟨hfits, hend⟩]
      · rw [if_pos (Nat.lt_of_not_le hend), if_neg fun h : p.HasRoom lower seg => hend h.2]
  · rw [if_pos (Nat.lt_of_not_le hfits), if_neg fun h => hfits h.1, if_neg fun h => hfits h.1]

/-- The search takes the first segment with room that it gets to. -/
theorem findLoadAddr_eq (p : Program arch) : findLoadAddr arch p.programSize lower upper pmMap =
    ((p.segmentsTried pmMap lower upper).find? fun seg => decide (p.HasRoom lower seg)).map
      (placeIn arch lower) := by
  induction pmMap with
  | nil => rfl
  | cons seg pmMap ih =>
    rw [findLoadAddr_cons, segmentsTried, List.takeWhile_cons]
    by_cases hends : p.EndsSearch lower upper seg
    · rw [if_pos hends, decide_eq_true hends]
      rfl
    · rw [if_neg hends, decide_eq_false hends, Bool.not_false, if_pos rfl, List.find?_cons]
      by_cases hroom : p.HasRoom lower seg
      · rw [if_pos hroom, decide_eq_true hroom]
        rfl
      · rw [if_neg hroom, decide_eq_false hroom]
        exact ih

/-- In a sorted map the search stops at a segment with room whose start is a real address, or before
it at one with an earlier place. -/
theorem findLoadAddr_of_near
    (hsorted : pmMap.Pairwise fun seg seg' => seg.start.toNat ≤ seg'.start.toNat)
    {seg : PmSegment} (hseg : seg ∈ pmMap) (hnear : Near arch seg) (hroom : p.HasRoom lower seg)
    (hlt : placeIn arch lower seg < upper) :
    ∃ first ∈ pmMap, findLoadAddr arch p.programSize lower upper pmMap =
      some (placeIn arch lower first) ∧ placeIn arch lower first ≤ placeIn arch lower seg ∧
      Near arch first ∧ p.HasRoom lower first := by
  induction pmMap with
  | nil => exact absurd hseg List.not_mem_nil
  | cons head pmMap ih =>
    obtain ⟨hhead, htail⟩ := List.pairwise_cons.mp hsorted
    have hstart : head.start.toNat ≤ seg.start.toNat := by
      rcases List.mem_cons.mp hseg with rfl | hin
      · exact Nat.le_refl _
      · exact hhead seg hin
    have hmul : head.start.toNat * pageSize ≤ seg.start.toNat * pageSize :=
      Nat.mul_le_mul_right pageSize hstart
    have hnear' : Near arch head := Nat.lt_of_le_of_lt hmul hnear
    have hearlier : placeIn arch lower head ≤ placeIn arch lower seg := by
      rw [hnear'.placeIn_eq, hnear.placeIn_eq]
      exact max_le_max_right lower hmul
    rw [findLoadAddr_cons, if_neg fun h => Nat.not_le.mpr hlt (h.2.trans hearlier)]
    by_cases hhas : p.HasRoom lower head
    · rw [if_pos hhas]
      exact ⟨head, List.mem_cons_self, rfl, hearlier, hnear', hhas⟩
    · have hin : seg ∈ pmMap :=
        (List.mem_cons.mp hseg).resolve_left fun heq => hhas (heq ▸ hroom)
      rw [if_neg hhas]
      exact (ih htail hin).imp fun s hs => hs.imp_left (List.mem_cons_of_mem head)

/-! ### Places -/

theorem programSize_pos (p : Program arch) : 0 < p.programSize := by
  rw [programSize, bspStackSize]
  omega

theorem start_add_lt (p : Program arch) : p.start + p.programSize < 2 ^ arch.bits := by
  have hmul : (p.numEnabledCpus - 1) * apStackSize ≤ maxAps * apStackSize :=
    Nat.mul_le_mul_right _ (by
      have := p.numEnabledCpus_le
      have := p.numAvailableCpus_le
      omega)
  have hfits := p.fits
  rw [stacksSize] at hfits
  rw [programSize]
  omega

/-- The program stays where it is, or there is a search. -/
theorem setLoadAddr_of_stays (h : p.Stays pmMap lower upper) :
    p.setLoadAddr pmMap lower upper = some p.start := by
  obtain ⟨hlow, hend, husable⟩ := h
  exact if_pos ⟨hlow, by rwa [Nat.mod_eq_of_lt p.start_add_lt], husable⟩

theorem setLoadAddr_of_not_stays (h : ¬p.Stays pmMap lower upper) :
    p.setLoadAddr pmMap lower upper = findLoadAddr arch p.programSize lower upper pmMap := by
  refine if_neg ?_
  rintro ⟨hlow, hend, husable⟩
  rw [Nat.mod_eq_of_lt p.start_add_lt] at hend
  exact h ⟨hlow, hend, husable⟩

/-- A place with room for the program in a segment whose start is a real address is a place if the
program ends within the limits. -/
theorem isPlace_of_hasRoom (hupper : upper < 2 ^ arch.bits) {seg : PmSegment} (hseg : seg ∈ pmMap)
    (hnear : Near arch seg) (hroom : p.HasRoom lower seg)
    (hend : placeIn arch lower seg + p.programSize ≤ upper) :
    IsPlace pmMap p.programSize lower upper (placeIn arch lower seg) := by
  have hfits := hroom.1
  rw [Fits, Nat.mod_eq_of_lt (by omega)] at hfits
  exact ⟨le_placeIn seg, hend, seg, hseg, hnear.le_placeIn, hfits.trans (pageAddress_le arch _)⟩

/-- So is any place within the limits in a segment that crosses the end of the addresses. -/
theorem Crosses.isPlace {seg : PmSegment} {addr : ℕ} (h : Crosses arch seg)
    (hupper : upper < 2 ^ arch.bits) (hseg : seg ∈ pmMap) (hlow : lower ≤ addr)
    (hstart : seg.start.toNat * pageSize ≤ addr) (hend : addr + p.programSize ≤ upper) :
    IsPlace pmMap p.programSize lower upper addr :=
  ⟨hlow, hend, seg, hseg, hstart, (hend.trans hupper.le).trans h.2⟩

/-- A place lies in a segment with room before the upper limit, or in one that crosses the end of
the addresses. -/
theorem IsPlace.crosses (hupper : upper < 2 ^ arch.bits)
    (hnone : ∀ seg ∈ pmMap, Near arch seg → p.HasRoom lower seg → upper ≤ placeIn arch lower seg)
    {addr : ℕ} (h : IsPlace pmMap p.programSize lower upper addr) :
    ∃ seg ∈ pmMap, Crosses arch seg ∧ seg.start.toNat * pageSize ≤ addr := by
  obtain ⟨hlow, hend, seg, hseg, hstart, hstop⟩ := h
  have hnear : Near arch seg := Nat.lt_of_le_of_lt hstart (by omega)
  refine ⟨seg, hseg, ⟨hnear, ?_⟩, hstart⟩
  by_contra hlt
  have hpos := p.programSize_pos
  have hle : placeIn arch lower seg ≤ addr := by
    rw [hnear.placeIn_eq]
    exact max_le hstart hlow
  have hlower : lower ≤ placeIn arch lower seg := le_placeIn seg
  have hroom : p.HasRoom lower seg := by
    rw [HasRoom, Fits, pageAddress_eq (Nat.lt_of_not_le hlt), Nat.mod_eq_of_lt (by omega)]
    constructor <;> omega
  have hbeyond := hnone seg hseg hnear hroom
  omega

/-- Where no segment whose start is a real address has room, it depends on the other ones. -/
theorem relocates_iff_wrapsWell (hupper : upper < 2 ^ arch.bits)
    (hsearch : ¬p.Stays pmMap lower upper)
    (hnone : ∀ seg ∈ pmMap, Near arch seg → p.HasRoom lower seg → upper ≤ placeIn arch lower seg) :
    p.Relocates pmMap lower upper ↔ p.WrapsWell pmMap lower upper := by
  have hset := setLoadAddr_of_not_stays hsearch
  rw [findLoadAddr_eq] at hset
  rw [WrapsWell]
  cases hfind : (p.segmentsTried pmMap lower upper).find?
      fun seg => decide (p.HasRoom lower seg) with
  | none =>
    rw [hfind, Option.map_none] at hset
    refine ⟨fun h seg hseg hcross => ?_, fun hfull => ⟨fun addr h => ?_, ?_⟩⟩
    · refine Nat.lt_of_not_le fun hend => ?_
      have hplace := hcross.isPlace hupper hseg (le_placeIn seg) hcross.1.le_placeIn hend
      have hwhere : placeIn arch lower seg = lower ∨
          ∃ seg' ∈ pmMap, placeIn arch lower seg = seg'.start.toNat * pageSize := by
        rw [hcross.1.placeIn_eq]
        rcases max_choice (seg.start.toNat * pageSize) lower with h | h
        · exact .inr ⟨seg, hseg, h⟩
        · exact .inl h
      have hsome := h.complete ⟨_, hwhere, hplace⟩
      rw [hset] at hsome
      exact Bool.false_ne_true hsome
    · rw [hset] at h
      contradiction
    · rintro ⟨addr, -, hplace⟩
      obtain ⟨seg, hseg, hcross, hstart⟩ := hplace.crosses hupper hnone
      have hle : placeIn arch lower seg ≤ addr := by
        rw [hcross.1.placeIn_eq]
        exact max_le hstart hplace.1
      have hbeyond := hfull seg hseg hcross
      have hend := hplace.2.1
      omega
  | some first =>
    rw [hfind, Option.map_some] at hset
    refine ⟨fun h => ?_, fun h => ⟨fun addr haddr => ?_, fun _ => by rw [hset]; rfl⟩⟩
    · have hplace := h.sound _ hset
      exact ⟨hplace.2.1, hplace.crosses hupper hnone⟩
    · obtain ⟨hend, seg, hseg, hcross, hstart⟩ := h
      obtain rfl := Option.some.inj (hset.symm.trans haddr)
      exact hcross.isPlace hupper hseg (le_placeIn first) hstart hend

/-- **Relocation target.** `set_load_addr` gives out places only, and finds one where there is
one, in exactly these cases. The program stays where it is, and is really in a segment there. It
does not stay, and of the segments whose start is a real address one has room for it within the
limits. Or none has room from its start or the lower limit on with that address below the upper
limit, and the segments whose addresses wrap do no harm. Only with 32 bits there are any of these.

The map is any that is sorted by the starts of its segments, as `pmem_init` leaves it, with page
numbers of 64 bits in both kinds of build. What is left out of the condition, for the most part,
is a place that begins within the limits and ends beyond them: the code compares the start with
the upper limit. -/
theorem relocates_iff
    (hsorted : pmMap.Pairwise fun seg seg' => seg.start.toNat ≤ seg'.start.toNat)
    (hupper : upper < 2 ^ arch.bits) :
    p.Relocates pmMap lower upper ↔
      p.Stays pmMap lower upper ∧ InSegment pmMap p.programSize p.start ∨
      ¬p.Stays pmMap lower upper ∧
        ((∃ seg ∈ pmMap, Near arch seg ∧ p.HasRoom lower seg ∧
            placeIn arch lower seg + p.programSize ≤ upper) ∨
          (∀ seg ∈ pmMap, Near arch seg → p.HasRoom lower seg →
            upper ≤ placeIn arch lower seg) ∧ p.WrapsWell pmMap lower upper) := by
  have hpos := p.programSize_pos
  by_cases hstays : p.Stays pmMap lower upper
  · have hset := setLoadAddr_of_stays hstays
    rw [or_iff_left fun h => h.1 hstays, and_iff_right hstays]
    refine ⟨fun h => (h.sound _ hset).2.2, fun h => ⟨fun addr haddr => ?_, fun _ => ?_⟩⟩
    · obtain rfl := Option.some.inj (hset.symm.trans haddr)
      exact ⟨hstays.1, hstays.2.1, h⟩
    · rw [hset]
      rfl
  have hset := setLoadAddr_of_not_stays hstays
  rw [or_iff_right fun h => hstays h.1, and_iff_right hstays]
  by_cases hnone : ∀ seg ∈ pmMap, Near arch seg → p.HasRoom lower seg →
      upper ≤ placeIn arch lower seg
  · rw [relocates_iff_wrapsWell hupper hstays hnone, and_iff_right hnone, or_iff_right]
    rintro ⟨seg, hseg, hnear, hroom, hend⟩
    have hbeyond := hnone seg hseg hnear hroom
    omega
  rw [or_iff_left fun h => hnone h.1]
  constructor
  · intro h
    simp only [not_forall, Nat.not_le] at hnone
    obtain ⟨seg, hseg, hnear, hroom, hlt⟩ := hnone
    obtain ⟨first, hfirst, hfound, -, hnear', hroom'⟩ :=
      findLoadAddr_of_near hsorted hseg hnear hroom hlt
    exact ⟨first, hfirst, hnear', hroom', (h.sound _ (hset.trans hfound)).2.1⟩
  · rintro ⟨seg, hseg, hnear, hroom, hend⟩
    -- the place the search takes begins no later than this one, and so ends within the limits
    have hlt : placeIn arch lower seg < upper := by omega
    obtain ⟨first, hfirst, hfound, hbefore, hnear', hroom'⟩ :=
      findLoadAddr_of_near hsorted hseg hnear hroom hlt
    refine ⟨fun addr h => ?_, fun _ => by rw [hset, hfound]; rfl⟩
    obtain rfl := Option.some.inj ((hset.trans hfound).symm.trans h)
    exact isPlace_of_hasRoom hupper hfirst hnear' hroom' (by omega)

/-- With 32 bits the memory from 4GB on looks like the first gigabyte: a program across the hole at
640KB would stay. -/
example : addrRangeIsUsable .b32 [⟨1, 0x9f⟩, ⟨0x100, 0xbf000⟩, ⟨0x100000, 0x240000⟩] 0x10000
    0xa5000 = true := by decide

/-- Memory up to 64KB, and from 64KB below the low load limit on. -/
def splitMemory : List PmSegment := [⟨0, 0x10⟩, ⟨0x3f0, 0x8000⟩]

theorem splitMemory_sorted :
    splitMemory.Pairwise fun seg seg' => seg.start.toNat ≤ seg'.start.toNat := by
  have hinit : (pmemInit [⟨0#64, 0x10000#64, 1⟩, ⟨0x3f0000#64, 0x7c10000#64, 1⟩]).pmMap =
      splitMemory := by decide
  rw [← hinit]
  exact sortPmMap_sorted _

theorem relocates_iff_high :
    (threeCpuProgram (fun _ => true) rfl).Relocates splitMemory lowLoadLimit
      (vmPinnedSize <<< pageShift) :=
  (relocates_iff splitMemory_sorted (by decide)).mpr
    (.inr ⟨fun h => absurd h.1 (by decide),
      .inl ⟨⟨0x3f0, 0x8000⟩, by decide, by unfold Near; decide, by decide, by decide⟩⟩)

/-- The low copy of a program of 212KB begins 64KB below `LOW_LOAD_LIMIT`. -/
theorem not_relocates_low :
    ¬∀ (arch : Arch) (p : Program arch) (pmMap : List PmSegment) (lower upper : ℕ),
      pmMap.Pairwise (fun seg seg' => seg.start.toNat ≤ seg'.start.toNat) → lower < upper →
      upper < 2 ^ arch.bits → p.Relocates pmMap lower upper := by
  intro h
  have hrelocates := h .b64 (threeCpuProgram (fun _ => true) rfl) splitMemory 0x1000 lowLoadLimit
    splitMemory_sorted (by decide) (by decide)
  have hplace := hrelocates.sound 0x3f0000 (by decide)
  exact absurd hplace.2.1 (by decide)

end Program

end Memtest
