import Memtest.Pmem.ChangePoints
import Memtest.Lib.Runs

/-!
# What `sanitize_e820_map` computes

The sweep writes one entry for each maximal run of a type over the change points, leaving out the
runs of size zero. Such runs are exactly the pieces of the overlay: the entries written are the
pieces, in order of address, and the output array holds the first `mapSize` of them.

From this the map is sorted, its entries are non-empty and disjoint, and the type at every address
is the highest type among the firmware's entries that contain it.
-/

namespace Memtest

open Overlay Runs

/-- The type of a map at an address: the highest type among its non-empty entries that contain the
address, or `E820_NONE`. An address is a natural number here, so that an entry which ends at the
top of the address space contains all of its addresses. -/
def typeAt (e820Map : List E820Entry) (x : ℕ) : ℕ := valueAt (spans e820Map) x

/-- An entry contains an address. -/
def E820Entry.Contains (e : E820Entry) (x : ℕ) : Prop := e.span.lo ≤ x ∧ x < e.span.hi

/-! ### The sweep as a fold -/

/-- The loop body without the bound on the output array. -/
def sweepStep (cp : ChangeMember) (s : SweepState) : SweepState :=
  let s := recordOverlap cp s
  let type := currentType s.overlapList
  if type ≠ s.lastType then openEntry cp type (closeEntry cp s) else s

@[simp]
theorem recordOverlap_overlapList (cp : ChangeMember) (s : SweepState) :
    (recordOverlap cp s).overlapList = updateOverlap cp s.overlapList := rfl

@[simp]
theorem recordOverlap_newMap (cp : ChangeMember) (s : SweepState) :
    (recordOverlap cp s).newMap = s.newMap := rfl

@[simp]
theorem recordOverlap_lastType (cp : ChangeMember) (s : SweepState) :
    (recordOverlap cp s).lastType = s.lastType := rfl

theorem openEntry_newMap (cp : ChangeMember) (type : ℕ) (s : SweepState) :
    (openEntry cp type s).newMap = s.newMap := by
  rw [openEntry]
  split <;> rfl

theorem closeEntry_newMap (cp : ChangeMember) (s : SweepState) :
    (closeEntry cp s).newMap = s.newMap ∨ ∃ e, (closeEntry cp s).newMap = s.newMap ++ [e] := by
  rw [closeEntry]
  split
  · dsimp only
    split
    · exact .inr ⟨_, rfl⟩
    · exact .inl rfl
  · exact .inl rfl

theorem sweepStep_newMap (cp : ChangeMember) (s : SweepState) :
    s.newMap <+: (sweepStep cp s).newMap := by
  rw [sweepStep]
  split
  · rw [openEntry_newMap]
    rcases closeEntry_newMap cp (recordOverlap cp s) with h | ⟨e, h⟩
    · exact ⟨[], by rw [h, recordOverlap_newMap, List.append_nil]⟩
    · exact ⟨[e], by rw [h, recordOverlap_newMap]⟩
  · exact List.prefix_rfl

theorem foldl_sweepStep_newMap (cps : List ChangeMember) (s : SweepState) :
    s.newMap <+: (cps.foldl (fun s cp => sweepStep cp s) s).newMap := by
  induction cps generalizing s with
  | nil => exact List.prefix_rfl
  | cons cp cps ih => exact (sweepStep_newMap cp s).trans (ih _)

/-- The early exit cuts the output off at the size of the array. -/
theorem sweep_eq_take {mapSize : ℕ} (cps : List ChangeMember) {s : SweepState}
    (h : s.newMap.length < mapSize) :
    sweep mapSize cps s = (cps.foldl (fun s cp => sweepStep cp s) s).newMap.take mapSize := by
  induction cps generalizing s with
  | nil => exact (List.take_of_length_le h.le).symm
  | cons cp cps ih =>
    rw [sweep, List.foldl_cons, sweepStep]
    dsimp only
    by_cases htype : currentType (recordOverlap cp s).overlapList ≠ (recordOverlap cp s).lastType
    · rw [if_pos htype, if_pos htype]
      have hlen : (closeEntry cp (recordOverlap cp s)).newMap.length ≤ s.newMap.length + 1 := by
        rcases closeEntry_newMap cp (recordOverlap cp s) with hc | ⟨e, hc⟩ <;> rw [hc] <;> simp
      split
      · next hfull =>
        have hpre := foldl_sweepStep_newMap cps (openEntry cp
          (currentType (recordOverlap cp s).overlapList) (closeEntry cp (recordOverlap cp s)))
        have htake := List.prefix_iff_eq_take.mp hpre
        rw [openEntry_newMap] at htake
        rwa [show (closeEntry cp (recordOverlap cp s)).newMap.length = mapSize by omega] at htake
      · next hfull =>
        refine ih ?_
        rw [openEntry_newMap]
        rw [recordOverlap_newMap] at hfull
        omega
    · rw [if_neg htype, if_neg htype]
      exact ih h

/-! ### The sweep writes the runs -/

/-- The address of change point `i`. -/
def addrAt (origMap : List E820Entry) (i : ℕ) : BitVec 64 :=
  ((sortedPoints origMap)[i]?.map ChangeMember.addr).getD 0#64

/-- The entry for a run of types, unless its size is zero. -/
def runEntry (origMap : List E820Entry) (r : ℕ × ℕ) : Option E820Entry :=
  let size := addrAt origMap r.2 - addrAt origMap r.1
  if size ≠ 0#64 then some ⟨addrAt origMap r.1, size, typeAfter origMap r.2⟩ else none

/-- The entries for the runs that end before change point `k`. -/
def runEntries (origMap : List E820Entry) (k : ℕ) : List E820Entry :=
  (runs (typeAfter origMap) e820None k).filterMap (runEntry origMap)

/-- The pieces of the map in order of address: what the sweep writes into an array that is large
enough. -/
def sanitizedPieces (origMap : List E820Entry) : List E820Entry :=
  runEntries origMap (sortedPoints origMap).length

/-- The state of the sweep after `k` change points. -/
structure SweepInv (origMap : List E820Entry) (k : ℕ) (s : SweepState) : Prop where
  overlapList : s.overlapList = overlapAfter ((sortedPoints origMap).take k)
  lastType : s.lastType = typeAfter origMap k
  newMap : s.newMap = runEntries origMap k
  inProgress : ∀ i, openAt (typeAfter origMap) e820None k = some i →
    s.lastAddr = addrAt origMap i ∧ s.slot.addr = addrAt origMap i ∧
      s.slot.type = typeAfter origMap k

section

variable {origMap : List E820Entry}

theorem addrAt_of_lt {i : ℕ} (hi : i < (sortedPoints origMap).length) :
    addrAt origMap i = (sortedPoints origMap)[i].addr := by
  simp [addrAt, List.getElem?_eq_getElem hi]

theorem sweepInv_init : SweepInv origMap 0 .init where
  overlapList := by simp [SweepState.init, overlapAfter]
  lastType := by rw [typeAfter_zero]; rfl
  newMap := by simp [SweepState.init, runEntries, runs]
  inProgress := by simp [openAt]

/-- What closing the entry in progress adds to the map. -/
theorem closeEntry_spec {k : ℕ} {s : SweepState} (hinv : SweepInv origMap k s)
    (hk : k < (sortedPoints origMap).length)
    (hch : typeAfter origMap k ≠ typeAfter origMap (k + 1)) (cp : ChangeMember) :
    (closeEntry (sortedPoints origMap)[k] (recordOverlap cp s)).newMap =
      runEntries origMap (k + 1) := by
  have h0 := typeAfter_zero origMap
  rw [runEntries, runs, if_pos hch, closeEntry, recordOverlap_lastType, hinv.lastType]
  cases hopen : openAt (typeAfter origMap) e820None k with
  | none =>
    rw [if_neg (by simpa using openAt_eq_none h0 hopen)]
    exact hinv.newMap
  | some i =>
    obtain ⟨-, -, -, hz⟩ := openAt_eq_some_iff.mp hopen
    obtain ⟨hlast, haddr, htype⟩ := hinv.inProgress i hopen
    rw [if_pos hz]
    simp only [List.filterMap_append, List.filterMap_cons, List.filterMap_nil, runEntry,
      recordOverlap, hlast, ← addrAt_of_lt hk]
    split <;> simp [hinv.newMap, runEntries, haddr, htype]

theorem sweepInv_step {k : ℕ} {s : SweepState} (hinv : SweepInv origMap k s)
    (hk : k < (sortedPoints origMap).length) :
    SweepInv origMap (k + 1) (sweepStep (sortedPoints origMap)[k] s) := by
  set cp := (sortedPoints origMap)[k] with hcp
  have hover : (recordOverlap cp s).overlapList =
      overlapAfter ((sortedPoints origMap).take (k + 1)) := by
    rw [recordOverlap_overlapList, hinv.overlapList, overlapAfter, overlapAfter,
      List.take_succ_eq_append_getElem hk, List.foldl_append]
    rfl
  rw [sweepStep]
  rw [hover, ← typeAfter, recordOverlap_lastType, hinv.lastType]
  by_cases hch : typeAfter origMap (k + 1) = typeAfter origMap k
  · -- the type stays the same: the run in progress goes on
    rw [if_neg (by simpa using hch)]
    refine ⟨hover, by rw [hch]; exact hinv.lastType, ?_, fun i hi => ?_⟩
    · rw [runEntries, runs, if_neg (by simpa using hch.symm)]
      exact hinv.newMap
    · rw [openAt, if_neg (by simpa using hch.symm)] at hi
      rw [hch]
      exact hinv.inProgress i hi
  · rw [if_pos hch]
    have hch' : typeAfter origMap k ≠ typeAfter origMap (k + 1) := fun h => hch h.symm
    have hkeep : (closeEntry cp (recordOverlap cp s)).overlapList =
        (recordOverlap cp s).overlapList := by
      rw [closeEntry]
      split
      · dsimp only
        split <;> rfl
      · rfl
    refine ⟨?_, ?_, ?_, fun i hi => ?_⟩
    · rw [openEntry]
      split <;> exact hkeep.trans hover
    · rw [openEntry]
      split <;> rfl
    · rw [openEntry_newMap, closeEntry_spec hinv hk hch']
    · rw [openAt, if_pos hch'] at hi
      split at hi
      · next hz =>
        obtain rfl : k = i := by simpa using hi
        rw [openEntry, if_pos hz]
        exact ⟨(addrAt_of_lt hk).symm, (addrAt_of_lt hk).symm, rfl⟩
      · simp at hi

theorem sweepInv_foldl {k : ℕ} (hk : k ≤ (sortedPoints origMap).length) :
    SweepInv origMap k
      (((sortedPoints origMap).take k).foldl (fun s cp => sweepStep cp s) .init) := by
  induction k with
  | zero => exact sweepInv_init
  | succ k ih =>
    rw [List.take_succ_eq_append_getElem hk, List.foldl_append]
    exact sweepInv_step (ih (by omega)) hk

/-- **The output array** holds the first `mapSize` pieces. -/
theorem sanitizeE820MapInto_eq (hwrap : ∀ e ∈ origMap, e.wraps = false) {mapSize : ℕ}
    (hsize : 0 < mapSize) :
    sanitizeE820MapInto mapSize origMap = (sanitizedPieces origMap).take mapSize := by
  have hany : ¬ origMap.any E820Entry.wraps = true := by
    simp only [List.any_eq_true, not_exists, not_and]
    intro e he
    simp [hwrap e he]
  have hinv : SweepInv origMap _ _ := sweepInv_foldl le_rfl
  rw [List.take_length] at hinv
  rw [sanitizeE820MapInto, if_neg hany, sweep_eq_take _ (by simpa [SweepState.init] using hsize),
    hinv.newMap, sanitizedPieces]

/-! ### Runs are pieces -/

theorem pos_le_pos {i j : ℕ} (hj : j < (sortedPoints origMap).length) (hij : i ≤ j) :
    (sortedPoints origMap)[i].pos ≤ (sortedPoints origMap)[j].pos := by
  rcases Nat.lt_or_ge i j with h | h
  · exact (List.pairwise_iff_getElem.mp (sortedPoints_pairwise origMap) i j (by omega) hj h).1
  · simp only [show i = j by omega, le_refl]

/-- Cutting the change points at a downward closed condition on them. -/
theorem exists_isPrefix_points (origMap : List E820Entry) {P : ChangeMember → Prop}
    (h : ∀ a b, a.pos ≤ b.pos → (a.pos = b.pos → b.start = true → a.start = true) → P b → P a) :
    ∃ k, k ≤ (sortedPoints origMap).length ∧ IsPrefix (sortedPoints origMap) P k :=
  exists_isPrefix ((sortedPoints_pairwise origMap).imp fun {a b} hab => h a b hab.1 hab.2)

/-- **A run of non-zero size is a piece of the overlay.** -/
theorem isPiece_of_isRun (hwrap : ∀ e ∈ origMap, e.wraps = false) {i j : ℕ}
    (hr : IsRun (typeAfter origMap) e820None i j) (hj : j < (sortedPoints origMap).length)
    (hi : i < (sortedPoints origMap).length)
    (hne : (sortedPoints origMap)[i].pos ≠ (sortedPoints origMap)[j].pos) :
    IsPiece (spans origMap) (sortedPoints origMap)[i].pos (sortedPoints origMap)[j].pos
      (typeAfter origMap j) := by
  have hle := pos_le_pos hj hr.lt.le
  -- a prefix that contains point `i` and not point `j` ends inside the run
  have hin : ∀ {P : ChangeMember → Prop} {k : ℕ}, IsPrefix (sortedPoints origMap) P k →
      P (sortedPoints origMap)[i] → ¬ P (sortedPoints origMap)[j] →
      typeAfter origMap k = typeAfter origMap j := by
    intro P k hpre hPi hPj
    have h1 : i < k := (hpre i hi).mpr hPi
    have h2 : ¬ j < k := fun h => hPj ((hpre j hj).mp h)
    exact hr.const k h1 (by omega)
  refine ⟨by omega, isCut_of_typeAfter_ne hwrap hi ?_, isCut_of_typeAfter_ne hwrap hj hr.closes,
    fun x hlo hhi hcut => hcut ?_, ?_, hr.value⟩
  · exact hr.opens
  · obtain ⟨k₁, -, hk₁⟩ := exists_isPrefix_points origMap
      (P := fun cp => cp.pos < x) (fun a b h _ hb => by omega)
    obtain ⟨k₂, -, hk₂⟩ := exists_isPrefix_points origMap
      (P := fun cp => cp.pos ≤ x) (fun a b h _ hb => by omega)
    obtain ⟨k₃, -, hk₃⟩ := exists_isPrefix_points origMap
      (P := fun cp => cp.pos < x ∨ (cp.pos = x ∧ cp.start = true)) (fun a b h hst hb => by
        rcases hb with hb | ⟨hb, hbs⟩
        · exact .inl (by omega)
        · rcases Nat.lt_or_ge a.pos x with ha | ha
          · exact .inl ha
          · exact .inr ⟨by omega, hst (by omega) hbs⟩)
    rw [← typeAfter_eq_valueBelow hwrap hk₁, ← typeAfter_eq_valueAt hwrap hk₂,
      ← typeAfter_eq_valueNear hwrap hk₃, hin hk₁ hlo (by omega), hin hk₂ hlo.le (by omega),
      hin hk₃ (.inl hlo) (by omega)]
    exact ⟨rfl, rfl⟩
  · obtain ⟨k, -, hk⟩ := exists_isPrefix_points origMap
      (P := fun cp => cp.pos ≤ (sortedPoints origMap)[i].pos) (fun a b h _ hb => by omega)
    rw [← typeAfter_eq_valueAt hwrap hk]
    exact hin hk le_rfl (by omega)

/-- Every address with a type lies in a run of non-zero size. -/
theorem exists_isRun_of_typeAt_ne (hwrap : ∀ e ∈ origMap, e.wraps = false) {x : ℕ}
    (hx : typeAt origMap x ≠ e820None) :
    ∃ i j, ∃ (hi : i < (sortedPoints origMap).length) (hj : j < (sortedPoints origMap).length),
      IsRun (typeAfter origMap) e820None i j ∧ (sortedPoints origMap)[i].pos ≤ x ∧
        x < (sortedPoints origMap)[j].pos := by
  obtain ⟨k, hk, hpre⟩ := exists_isPrefix_points origMap
    (P := fun cp => cp.pos ≤ x) (fun a b h _ hb => by omega)
  have hv : typeAfter origMap k ≠ e820None := by
    rw [typeAfter_eq_valueAt hwrap hpre]
    exact hx
  obtain ⟨i, j, hik, hkj, hj, -, hr⟩ :=
    exists_isRun (typeAfter_zero origMap) (typeAfter_length hwrap) hk hv
  have hi : i < (sortedPoints origMap).length := by omega
  refine ⟨i, j, hi, hj, hr, (hpre i hi).mp hik, ?_⟩
  by_contra hge
  have := (hpre j hj).mpr (by omega)
  omega

/-- The interval a run entry stands for. -/
theorem runEntry_eq_some {i j : ℕ} (hi : i < (sortedPoints origMap).length)
    (hj : j < (sortedPoints origMap).length) (hij : i ≤ j) {e : E820Entry} :
    runEntry origMap (i, j) = some e ↔
      (sortedPoints origMap)[i].pos ≠ (sortedPoints origMap)[j].pos ∧
        e.span = ⟨(sortedPoints origMap)[i].pos, (sortedPoints origMap)[j].pos,
          typeAfter origMap j⟩ := by
  have hle := pos_le_pos hj hij
  simp only [ChangeMember.pos] at hle ⊢
  simp only [runEntry, addrAt_of_lt hi, addrAt_of_lt hj, E820Entry.span, Span.mk.injEq]
  set a := (sortedPoints origMap)[i].addr
  set b := (sortedPoints origMap)[j].addr
  obtain ⟨addr, size, type⟩ := e
  by_cases hab : b - a = 0#64
  · have heq : a.toNat = b.toNat := by bv_omega
    simp [hab, heq]
  · have hne : a.toNat ≠ b.toNat := by
      intro h
      exact hab (by bv_omega)
    simp only [ne_eq, hab, not_false_eq_true, if_true, Option.some.injEq, E820Entry.mk.injEq,
      hne, true_and]
    constructor
    · rintro ⟨rfl, rfl, rfl⟩
      refine ⟨rfl, ?_, rfl⟩
      rw [BitVec.toNat_sub_of_le (by rwa [BitVec.le_def])]
      omega
    · rintro ⟨haddr, hsize, htype⟩
      refine ⟨(BitVec.eq_of_toNat_eq haddr).symm, BitVec.eq_of_toNat_eq ?_, htype.symm⟩
      rw [BitVec.toNat_sub_of_le (by rwa [BitVec.le_def])]
      omega

/-- The entries written are the run entries. -/
theorem mem_sanitizedPieces {e : E820Entry} :
    e ∈ sanitizedPieces origMap ↔
      ∃ i j, j < (sortedPoints origMap).length ∧ IsRun (typeAfter origMap) e820None i j ∧
        runEntry origMap (i, j) = some e := by
  rw [sanitizedPieces, runEntries, List.mem_filterMap]
  constructor
  · rintro ⟨⟨i, j⟩, hmem, hsome⟩
    obtain ⟨hj, hr⟩ := (mem_runs_iff (typeAfter_zero origMap)).mp hmem
    exact ⟨i, j, hj, hr, hsome⟩
  · rintro ⟨i, j, hj, hr, hsome⟩
    exact ⟨(i, j), (mem_runs_iff (typeAfter_zero origMap)).mpr ⟨hj, hr⟩, hsome⟩

/-- Every entry written is a piece of the overlay. -/
theorem isPiece_of_mem (hwrap : ∀ e ∈ origMap, e.wraps = false) {e : E820Entry}
    (he : e ∈ sanitizedPieces origMap) :
    IsPiece (spans origMap) e.span.lo e.span.hi e.span.value := by
  obtain ⟨i, j, hj, hr, hsome⟩ := mem_sanitizedPieces.mp he
  have hi : i < (sortedPoints origMap).length := by have := hr.lt; omega
  obtain ⟨hne, hspan⟩ := (runEntry_eq_some hi hj hr.lt.le).mp hsome
  rw [hspan]
  exact isPiece_of_isRun hwrap hr hj hi hne

/-- Every address with a type lies in an entry written. -/
theorem exists_mem_of_typeAt_ne (hwrap : ∀ e ∈ origMap, e.wraps = false) {x : ℕ}
    (hx : typeAt origMap x ≠ e820None) : ∃ e ∈ sanitizedPieces origMap, e.Contains x := by
  obtain ⟨i, j, hi, hj, hr, hlo, hhi⟩ := exists_isRun_of_typeAt_ne hwrap hx
  have hne : (sortedPoints origMap)[i].pos ≠ (sortedPoints origMap)[j].pos := by omega
  obtain ⟨e, he⟩ : ∃ e, runEntry origMap (i, j) = some e := by
    have hle := pos_le_pos hj hr.lt.le
    simp only [ChangeMember.pos] at hne hle
    refine Option.ne_none_iff_exists'.mp ?_
    simp only [runEntry, addrAt_of_lt hi, addrAt_of_lt hj, ne_eq, ite_not]
    split
    · next h => exact absurd (show _ = _ by bv_omega) hne
    · simp
  obtain ⟨-, hspan⟩ := (runEntry_eq_some hi hj hr.lt.le).mp he
  refine ⟨e, mem_sanitizedPieces.mpr ⟨i, j, hj, hr, he⟩, ?_⟩
  rw [E820Entry.Contains, hspan]
  exact ⟨hlo, hhi⟩

/-- **Refinement.** The entries written are exactly the pieces of the overlay. -/
theorem exists_mem_sanitizedPieces_iff (hwrap : ∀ e ∈ origMap, e.wraps = false)
    {lo hi value : ℕ} :
    (∃ e ∈ sanitizedPieces origMap, e.span = ⟨lo, hi, value⟩) ↔
      IsPiece (spans origMap) lo hi value := by
  constructor
  · rintro ⟨e, he, hspan⟩
    have hp := isPiece_of_mem hwrap he
    rwa [hspan] at hp
  · intro hp
    have hx : typeAt origMap lo ≠ e820None := by
      rw [typeAt, hp.valueAt_lo]
      exact hp.value_ne
    obtain ⟨e, he, hc⟩ := exists_mem_of_typeAt_ne hwrap hx
    have hp' := isPiece_of_mem hwrap he
    obtain ⟨h1, h2, h3⟩ := hp'.unique hp hc ⟨le_rfl, hp.lt⟩
    exact ⟨e, he, by rw [← h1, ← h2, ← h3]⟩

/-- The entries written come in order of address, each ending before the next begins. -/
theorem sanitizedPieces_pairwise (origMap : List E820Entry) :
    (sanitizedPieces origMap).Pairwise fun a b => a.span.hi ≤ b.span.lo := by
  rw [sanitizedPieces, runEntries, List.pairwise_filterMap]
  refine (List.Pairwise.and_mem.mp (runs_pairwise (typeAfter_zero origMap) _)).imp ?_
  rintro ⟨i, j⟩ ⟨i', j'⟩ ⟨hmem, hmem', hle⟩ e he e' he'
  obtain ⟨hj, hr⟩ := (mem_runs_iff (typeAfter_zero origMap)).mp hmem
  obtain ⟨hj', hr'⟩ := (mem_runs_iff (typeAfter_zero origMap)).mp hmem'
  have h1 := hr.lt
  have h2 := hr'.lt
  rw [((runEntry_eq_some (by omega) hj h1.le).mp he).2,
    ((runEntry_eq_some (by omega) hj' h2.le).mp he').2]
  exact pos_le_pos (by omega) hle

theorem length_sanitizedPieces_le (origMap : List E820Entry) :
    (sanitizedPieces origMap).length ≤ 2 * origMap.length := by
  have hruns : ∀ k, (runs (typeAfter origMap) e820None k).length ≤ k := by
    intro k
    induction k with
    | zero => simp [runs]
    | succ k ih =>
      rw [runs]
      split
      · split
        · simpa using ih
        · omega
      · omega
  calc (sanitizedPieces origMap).length
      ≤ (runs (typeAfter origMap) e820None (sortedPoints origMap).length).length :=
        List.length_filterMap_le _ _
    _ ≤ (sortedPoints origMap).length := hruns _
    _ = 2 * origMap.length := length_sortedPoints origMap

end

/-- The result does not overflow: an output array of any larger size would not take more than
`E820_MAP_SIZE` entries either. So nothing has been dropped for want of room, and the map is what
the sweep over all change points makes of it. -/
def FitsMap (origMap : List E820Entry) : Prop :=
  ∀ mapSize, e820MapSize ≤ mapSize →
    (sanitizeE820MapInto mapSize origMap).length ≤ e820MapSize

/-- What a sanitised map has to be, of which the first three parts are about the map alone and the
last two compare it with the firmware's. An address without an entry is one of no type: this is
where stretches that the firmware reports with size zero, or not at all, are left out. The type at
an address is a number, and the highest one wins, as the firmware interface demands for
overlapping entries. -/
structure IsSanitized (origMap newMap : List E820Entry) : Prop where
  sorted : newMap.Pairwise fun a b => a.addr < b.addr
  nonempty : ∀ e ∈ newMap, e.size ≠ 0#64
  disjoint : newMap.Pairwise fun a b => ∀ x, ¬ (a.Contains x ∧ b.Contains x)
  type_eq : ∀ x, ∀ e ∈ newMap, e.Contains x → e.type = typeAt origMap x
  none_eq : ∀ x, (∀ e ∈ newMap, ¬ e.Contains x) → typeAt origMap x = e820None

theorem sanitizeE820Map_eq_take {origMap : List E820Entry}
    (hwrap : ∀ e ∈ origMap, e.wraps = false) :
    sanitizeE820Map origMap = (sanitizedPieces origMap).take e820MapSize :=
  sanitizeE820MapInto_eq hwrap (by decide)

theorem sanitizeE820Map_eq_of_fitsMap {origMap : List E820Entry}
    (hwrap : ∀ e ∈ origMap, e.wraps = false) (hfit : FitsMap origMap) :
    sanitizeE820Map origMap = sanitizedPieces origMap := by
  have hlen := hfit (e820MapSize + 2 * origMap.length) (by omega)
  rw [sanitizeE820MapInto_eq hwrap (by simp [e820MapSize]), List.length_take] at hlen
  have hle := length_sanitizedPieces_le origMap
  rw [sanitizeE820Map_eq_take hwrap]
  exact List.take_of_length_le (by omega)

/-- Maps with at most half as many entries as the array holds always fit. -/
theorem fitsMap_of_length_le {origMap : List E820Entry}
    (h : 2 * origMap.length ≤ e820MapSize) : FitsMap origMap := by
  intro mapSize hsize
  by_cases hany : origMap.any E820Entry.wraps = true
  · simp [sanitizeE820MapInto, hany]
  · have hwrap : ∀ e ∈ origMap, e.wraps = false := by simpa using hany
    have hle := length_sanitizedPieces_le origMap
    rw [sanitizeE820MapInto_eq hwrap (lt_of_lt_of_le (by decide) hsize), List.length_take]
    omega

/-- **Memory map sanitising.** For a firmware map of which no entry wraps and whose result does
not overflow the output array, the sanitised map is sorted by address, its entries are non-empty
and pairwise disjoint, and at every address it has the highest type among the non-empty entries of
the firmware's map that contain it.

The first hypothesis is the test the function makes itself: where an entry wraps, it gives up and
returns the empty map. The entries may come in any order, overlap, repeat, have any type and be
empty. -/
theorem sanitizeE820Map_correct {origMap : List E820Entry}
    (hwrap : ∀ e ∈ origMap, e.wraps = false) (hfit : FitsMap origMap) :
    IsSanitized origMap (sanitizeE820Map origMap) := by
  rw [sanitizeE820Map_eq_of_fitsMap hwrap hfit]
  have hpw := sanitizedPieces_pairwise origMap
  have hpiece : ∀ e ∈ sanitizedPieces origMap, IsPiece (spans origMap) _ _ _ := fun e he =>
    isPiece_of_mem hwrap he
  refine ⟨?_, fun e he h0 => ?_, hpw.imp fun {a b} hab x h => ?_, fun x e he hc => ?_,
    fun x h => ?_⟩
  · refine (List.Pairwise.and_mem.mp hpw).imp ?_
    rintro a b ⟨ha, -, hab⟩
    have hlt := (hpiece a ha).lt
    rw [BitVec.lt_def]
    exact lt_of_lt_of_le hlt hab
  · have hlt := (hpiece e he).lt
    simp [h0] at hlt
  · obtain ⟨⟨-, h1⟩, ⟨h2, -⟩⟩ := h
    omega
  · exact ((hpiece e he).valueAt_eq hc.1 hc.2).symm
  · by_contra hne
    obtain ⟨e, he, hc⟩ := exists_mem_of_typeAt_ne hwrap hne
    exact h e he hc

/-- The theorem at a RAM entry with a reserved hole in it. -/
theorem sanitizeE820Map_correct_hole :
    IsSanitized [⟨0x1000#64, 0x3000#64, 1⟩, ⟨0x2000#64, 0x1000#64, 2⟩]
      (sanitizeE820Map [⟨0x1000#64, 0x3000#64, 1⟩, ⟨0x2000#64, 0x1000#64, 2⟩]) :=
  sanitizeE820Map_correct (by decide) (fitsMap_of_length_le (by decide))

end Memtest
