import Memtest.Lib.Executions
import Memtest.Pmem.PmMapSpec
import Memtest.Tests.ChunkSpec
import Memtest.Windows.FirstWord
import Mathlib.Order.CompletePartialOrder
import Mathlib.Order.Interval.Set.Disjoint

/-!
# Addresses for the BARs (`alloc_in_window` in `system/aarch64/pci.c`)

Where the firmware leaves a BAR without an address, one is taken from the window of the bridge, from
its top downwards and past the addresses that were given out before. The candidates only ever get
lower as long as the block in the way is not below the size asked for. It is there only in a window
that starts at address 0, and there the next candidate is at the top of the address space, above
the window, where nothing is in its way. Address 0 itself is taken for a failure by the caller, but
is noted as given out.
-/

namespace Memtest

/-- An element of `mmio_allocs`. -/
structure MmioBlock where
  base : ℕ
  size : ℕ
  deriving DecidableEq, Repr

/-- `MAX_MMIO_ALLOCS`. -/
def maxMmioAllocs : ℕ := 8

/-- `overlaps_ram`. -/
def overlapsRam (pmMap : List PmSegment) (base size : ℕ) : Bool :=
  pmMap.any fun seg =>
    base < (seg.stop <<< pageShift).toNat &&
      (seg.start <<< pageShift).toNat < (base + size) % 2 ^ 64

/-- The condition of the inner loop of `alloc_in_window`. -/
def MmioBlock.conflicts (candidate size : ℕ) (b : MmioBlock) : Bool :=
  candidate < (b.base + b.size) % 2 ^ 64 && b.base < (candidate + size) % 2 ^ 64

/-- The highest place for a block below an address, as `alloc_in_window` computes it. -/
def placeBelow (addr size : ℕ) : ℕ := roundDown .b64 ((addr + 2 ^ 64 - size) % 2 ^ 64) size

/-- The loop of `alloc_in_window`; `none` if it does not end in the given number of steps. -/
def findCandidate (allocs : List MmioBlock) (winStart size : ℕ) : ℕ → ℕ → Option ℕ
  | 0, _ => none
  | fuel + 1, candidate =>
    if winStart ≤ candidate then
      match allocs.find? (MmioBlock.conflicts candidate size) with
      | some b => findCandidate allocs winStart size fuel (placeBelow b.base size)
      | none => some candidate
    else some candidate

/-- `alloc_in_window`: the result, and `mmio_allocs` after the call. -/
def allocInWindow (pmMap : List PmSegment) (allocs : List MmioBlock) (winStart winEnd size : ℕ) :
    Option (ℕ × List MmioBlock) :=
  if allocs.length = maxMmioAllocs ∨ size = 0 ∨ winEnd < size then some (0, allocs)
  else
    let first := placeBelow winEnd size
    (findCandidate allocs winStart size (first + 2) first).map fun candidate =>
      if candidate < winStart ∨ overlapsRam pmMap candidate size then (0, allocs)
      else (candidate, allocs ++ [⟨candidate, size⟩])

/-- A call of `alloc_in_window`. `pci_alloc_mmio` makes sure that the size is a power of two. -/
structure MmioCall where
  winStart : BitVec 64
  winEnd : BitVec 64
  log : Fin 64
  deriving DecidableEq, Repr

/-- The size that is asked for. -/
def MmioCall.size (c : MmioCall) : ℕ := 2 ^ c.log.val

/-- A call, as a step of `mmio_allocs`. -/
def MmioCall.step (pmMap : List PmSegment) (c : MmioCall) (allocs : List MmioBlock) :
    Option (List MmioBlock) :=
  (allocInWindow pmMap allocs c.winStart.toNat c.winEnd.toNat c.size).map Prod.snd

/-- The bytes of a segment. -/
def PmSegment.bytes (seg : PmSegment) : Set ℕ :=
  Set.Ico (seg.start.toNat * pageSize) (seg.stop.toNat * pageSize)

/-- The bytes of a block. -/
def MmioBlock.bytes (b : MmioBlock) : Set ℕ := Set.Ico b.base (b.base + b.size)

/-- No block that was given out is in the way of one at an address. -/
def FreePlace (allocs : List MmioBlock) (size addr : ℕ) : Prop :=
  ∀ b ∈ allocs, Disjoint (MmioBlock.mk addr size).bytes b.bytes

/-- A block that may be given out: none that was given out before and no RAM is in its way, it
lies in the window, and it is aligned to its size, as a BAR has to be. -/
structure MmioCall.Fits (pmMap : List PmSegment) (allocs : List MmioBlock) (c : MmioCall)
    (addr : ℕ) : Prop where
  aligned : c.size ∣ addr
  inside : c.winStart.toNat ≤ addr ∧ addr + c.size ≤ c.winEnd.toNat
  apart : FreePlace allocs c.size addr
  noRam : ∀ seg ∈ pmMap, Disjoint (MmioBlock.mk addr c.size).bytes seg.bytes

/-- A sound call fails and changes nothing, or it gives out a block and notes it. A failure is the
address 0. -/
def MmioCall.Sound (pmMap : List PmSegment) (c : MmioCall) (allocs : List MmioBlock) : Prop :=
  ∀ addr allocs',
    allocInWindow pmMap allocs c.winStart.toNat c.winEnd.toNat c.size = some (addr, allocs') →
    (addr = 0 ∧ allocs' = allocs) ∨
      (addr ≠ 0 ∧ allocs' = allocs ++ [⟨addr, c.size⟩] ∧ c.Fits pmMap allocs addr)

/-- A free place above address 0 that ends in the window; asked for in one that starts there. -/
def MmioCall.HasPlace (c : MmioCall) (allocs : List MmioBlock) : Prop :=
  ∃ addr, 0 < addr ∧ c.size ∣ addr ∧ addr + c.size ≤ c.winEnd.toNat ∧
    FreePlace allocs c.size addr

/-- What makes a call sound: the window starts above address 0 or has a free place there, or
address 0 is not given out because of the RAM there, or nothing is looked for at all. It is said
of the window, the size, the blocks given out so far and the memory map. -/
def MmioCall.AboveZero (pmMap : List PmSegment) (c : MmioCall) (allocs : List MmioBlock) : Prop :=
  allocs.length = maxMmioAllocs ∨ c.winEnd.toNat < c.size ∨ 0 < c.winStart.toNat ∨
    c.HasPlace allocs ∨ (FreePlace allocs c.size 0 ∧ overlapsRam pmMap 0 c.size = true)

variable {pmMap : List PmSegment} {allocs : List MmioBlock} {winStart size k : ℕ}

/-! ### Places -/

theorem placeBelow_of_le {addr : ℕ} (hk : k < 64) (haddr : addr < 2 ^ 64) (hle : 2 ^ k ≤ addr) :
    placeBelow addr (2 ^ k) = (addr - 2 ^ k) / 2 ^ k * 2 ^ k := by
  have hsub : (addr + 2 ^ 64 - 2 ^ k) % 2 ^ 64 = addr - 2 ^ k := by
    rw [Nat.sub_add_comm hle, Nat.add_mod_right]
    exact Nat.mod_eq_of_lt ((Nat.sub_le _ _).trans_lt haddr)
  have hlt : addr - 2 ^ k < 2 ^ Arch.b64.bits := (Nat.sub_le _ _).trans_lt haddr
  rw [placeBelow, hsub, roundDown_eq hlt hk]

/-- The subtraction wraps. -/
theorem placeBelow_of_lt {addr : ℕ} (hk : k < 64) (hlt : addr < 2 ^ k) :
    placeBelow addr (2 ^ k) = 2 ^ 64 - 2 ^ k := by
  have hpow : 2 ^ k < 2 ^ 64 := Nat.pow_lt_pow_right (by decide) hk
  have hsub : (addr + 2 ^ 64 - 2 ^ k) % 2 ^ 64 = addr + (2 ^ 64 - 2 ^ k) := by
    rw [Nat.mod_eq_of_lt (by omega)]
    omega
  have hbound : addr + (2 ^ 64 - 2 ^ k) < 2 ^ Arch.b64.bits :=
    show addr + (2 ^ 64 - 2 ^ k) < 2 ^ 64 by omega
  rw [placeBelow, hsub, roundDown_eq hbound hk]
  obtain ⟨d, hd⟩ : 2 ^ k ∣ 2 ^ 64 - 2 ^ k :=
    Nat.dvd_sub (pow_dvd_pow 2 hk.le) (dvd_refl _)
  rw [hd, Nat.add_mul_div_left _ _ (Nat.two_pow_pos k), Nat.div_eq_of_lt hlt, Nat.zero_add,
    Nat.mul_comm]

theorem dvd_placeBelow {addr : ℕ} (hk : k < 64) (haddr : addr < 2 ^ 64) :
    2 ^ k ∣ placeBelow addr (2 ^ k) := by
  obtain hle | hlt := le_or_gt (2 ^ k) addr
  · exact placeBelow_of_le hk haddr hle ▸ Nat.dvd_mul_left _ _
  · exact placeBelow_of_lt hk hlt ▸ Nat.dvd_sub (pow_dvd_pow 2 hk.le) (dvd_refl _)

theorem placeBelow_add_le {addr : ℕ} (hk : k < 64) (haddr : addr < 2 ^ 64) (hle : 2 ^ k ≤ addr) :
    placeBelow addr (2 ^ k) + 2 ^ k ≤ addr := by
  rw [placeBelow_of_le hk haddr hle]
  have := Nat.div_mul_le_self (addr - 2 ^ k) (2 ^ k)
  omega

/-- There is no aligned place between the one below an address and that address. -/
theorem le_placeBelow {addr c : ℕ} (hk : k < 64) (haddr : addr < 2 ^ 64) (hc : 2 ^ k ∣ c)
    (hle : c + 2 ^ k ≤ addr) : c ≤ placeBelow addr (2 ^ k) := by
  rw [placeBelow_of_le hk haddr (by omega)]
  obtain ⟨d, rfl⟩ := hc
  rw [Nat.mul_comm (2 ^ k)]
  refine Nat.mul_le_mul_right _ ((Nat.le_div_iff_mul_le (Nat.two_pow_pos k)).mpr ?_)
  rw [Nat.mul_comm]
  exact Nat.le_sub_of_add_le hle

theorem lt_top_of_dvd {c : ℕ} (hk : k < 64) (hc : 2 ^ k ∣ c) (hlt : c < 2 ^ 64) :
    c + 2 ^ k ≤ 2 ^ 64 := by
  obtain ⟨d, hd⟩ := pow_dvd_pow 2 hk.le
  obtain ⟨e, rfl⟩ := hc
  rw [hd] at hlt ⊢
  rw [← Nat.mul_succ]
  exact Nat.mul_le_mul_left _ (Nat.lt_of_mul_lt_mul_left hlt)

/-! ### The candidates -/

/-- Addresses of blocks are addresses. -/
def BasesOk (allocs : List MmioBlock) : Prop := ∀ b ∈ allocs, b.base < 2 ^ 64

theorem conflicts_iff {c : ℕ} {b : MmioBlock} : b.conflicts c size = true ↔
    c < (b.base + b.size) % 2 ^ 64 ∧ b.base < (c + size) % 2 ^ 64 := by
  rw [MmioBlock.conflicts, Bool.and_eq_true, decide_eq_true_eq, decide_eq_true_eq]

/-- A candidate with a block in its way is not the one at the top of the address space. The next
one is lower, unless the block is below the size. -/
theorem placeBelow_of_conflicts {c : ℕ} {b : MmioBlock} (hbase : b.base < 2 ^ 64) (hk : k < 64)
    (hc : 2 ^ k ∣ c) (hlt : c < 2 ^ 64) (h : b.conflicts c (2 ^ k) = true) :
    b.base < c + 2 ^ k ∧ c + 2 ^ k < 2 ^ 64 ∧
      (2 ^ k ≤ b.base ∧ placeBelow b.base (2 ^ k) + 2 ^ k ≤ b.base ∨
        b.base < 2 ^ k ∧ placeBelow b.base (2 ^ k) = 2 ^ 64 - 2 ^ k) := by
  have hb := (conflicts_iff.mp h).2
  have hnotTop : c + 2 ^ k < 2 ^ 64 := by
    refine (lt_top_of_dvd hk hc hlt).lt_of_ne fun htop => ?_
    rw [htop, Nat.mod_self] at hb
    exact absurd hb (Nat.not_lt_zero _)
  rw [Nat.mod_eq_of_lt hnotTop] at hb
  refine ⟨hb, hnotTop, ?_⟩
  obtain hle | hsmall := le_or_gt (2 ^ k) b.base
  · exact .inl ⟨hle, placeBelow_add_le hk hbase hle⟩
  · exact .inr ⟨hsmall, placeBelow_of_lt hk hsmall⟩

/-- The loop ends: the candidates get lower, but for one at the top of the address space, and no
block is in the way there. -/
theorem exists_findCandidate (hbases : BasesOk allocs) (hk : k < 64) {fuel c : ℕ}
    (hc : 2 ^ k ∣ c) (hlt : c < 2 ^ 64) (hfuel : c + 2 ^ k < 2 ^ 64 → c + 2 ≤ fuel)
    (hpos : 0 < fuel) :
    ∃ r, findCandidate allocs winStart (2 ^ k) fuel c = some r ∧ r < 2 ^ 64 := by
  induction fuel generalizing c with
  | zero => exact absurd hpos (lt_irrefl 0)
  | succ fuel ih =>
    rw [findCandidate]
    split_ifs with hwin
    · cases hfind : allocs.find? (MmioBlock.conflicts c (2 ^ k)) with
      | none => exact ⟨c, rfl, hlt⟩
      | some b =>
        have hbase := hbases b (List.mem_of_find?_eq_some hfind)
        -- the next candidate is lower, unless it wraps, and then it is out of the window
        obtain ⟨hb, hnotTop, hnext⟩ :=
          placeBelow_of_conflicts hbase hk hc hlt (List.find?_some hfind)
        have hf := hfuel hnotTop
        have hpow := Nat.two_pow_pos k
        refine ih (dvd_placeBelow hk hbase) ?_ ?_ (by omega)
        · obtain ⟨-, hle⟩ | ⟨-, htop⟩ := hnext <;> omega
        · obtain ⟨-, hle⟩ | ⟨-, htop⟩ := hnext <;> omega
    · exact ⟨c, rfl, hlt⟩

/-- The blocks that sound calls give out. -/
structure BlockOk (b : MmioBlock) : Prop where
  base_pos : 0 < b.base
  aligned : ∃ k, b.size = 2 ^ k ∧ 2 ^ k ∣ b.base
  lt : b.base + b.size < 2 ^ 64

theorem conflicts_iff_not_disjoint {c : ℕ} {b : MmioBlock} (hb : BlockOk b) (hsize : 0 < size)
    (hlt : c + size < 2 ^ 64) :
    b.conflicts c size = true ↔ ¬Disjoint (MmioBlock.mk c size).bytes b.bytes := by
  obtain ⟨j, hj, -⟩ := hb.aligned
  have hpos : 0 < b.size := hj ▸ Nat.two_pow_pos j
  rw [conflicts_iff, Nat.mod_eq_of_lt hb.lt, Nat.mod_eq_of_lt hlt, MmioBlock.bytes,
    MmioBlock.bytes, Set.Ico_disjoint_Ico]
  simp only [not_le, lt_min_iff, max_lt_iff]
  omega

theorem FreePlace.find?_eq_none {c : ℕ} (hok : ∀ b ∈ allocs, BlockOk b) (hsize : 0 < size)
    (hlt : c + size < 2 ^ 64) :
    allocs.find? (MmioBlock.conflicts c size) = none ↔ FreePlace allocs size c := by
  rw [List.find?_eq_none]
  refine forall₂_congr fun b hb => ?_
  rw [conflicts_iff_not_disjoint (hok b hb) hsize hlt, not_not]

/-- The loop passes over no free place: all aligned places between the next candidate and this one
meet the block that is in the way of this one. -/
theorem not_freePlace_of_conflicts {c c' : ℕ} {b : MmioBlock} (hok : ∀ b ∈ allocs, BlockOk b)
    (hmem : b ∈ allocs) (hk : k < 64) (hlt : c + 2 ^ k < 2 ^ 64)
    (h : b.conflicts c (2 ^ k) = true) (hc' : 2 ^ k ∣ c')
    (hnext : placeBelow b.base (2 ^ k) < c' ∨ b.base < 2 ^ k) (hle : c' ≤ c) :
    ¬FreePlace allocs (2 ^ k) c' := by
  intro hfree
  have hb := hok b hmem
  have hpow := Nat.two_pow_pos k
  refine (conflicts_iff_not_disjoint hb hpow (by omega)).mp ?_ (hfree b hmem)
  rw [conflicts_iff, Nat.mod_eq_of_lt hb.lt, Nat.mod_eq_of_lt (by omega)] at h ⊢
  -- no multiple lies between the next candidate and the block
  have habove : b.base < c' + 2 ^ k := by
    obtain hnext | hsmall := hnext
    · by_contra hbelow
      have hbase : b.base < 2 ^ 64 := by
        have := hb.lt
        omega
      exact absurd (le_placeBelow hk hbase hc' (not_lt.mp hbelow)) (not_le.mpr hnext)
    · omega
  exact ⟨hle.trans_lt h.1, habove⟩

/-- Only a block at the start of the address space is below the size of one it is in the way of. -/
theorem eq_zero_of_conflicts {c : ℕ} {b : MmioBlock} (hb : BlockOk b) (hc : 2 ^ k ∣ c)
    (h : b.conflicts c (2 ^ k) = true) (hsmall : b.base < 2 ^ k) : c = 0 := by
  rw [conflicts_iff, Nat.mod_eq_of_lt hb.lt] at h
  obtain ⟨j, hsize, d, hd⟩ := hb.aligned
  have hdpos : 0 < d := Nat.pos_of_ne_zero fun h0 => by
    have := hb.base_pos
    rw [hd, h0, Nat.mul_zero] at this
    exact lt_irrefl 0 this
  have hjk : j < k := by
    refine (Nat.pow_lt_pow_iff_right (by decide : 1 < 2)).mp (lt_of_le_of_lt ?_ hsmall)
    rw [hd]
    exact Nat.le_mul_of_pos_right _ hdpos
  obtain ⟨e, he⟩ := pow_dvd_pow 2 hjk.le
  -- the block ends at or below the size
  have hend : b.base + b.size ≤ 2 ^ k := by
    rw [hd, he] at hsmall
    rw [hsize, hd, he, ← Nat.mul_succ]
    exact Nat.mul_le_mul_left _ (Nat.lt_of_mul_lt_mul_left hsmall)
  exact Nat.eq_zero_of_dvd_of_lt hc (h.1.trans_le hend)

/-- What the loop finds: the highest free place if that is in the window, or else an address below
the window; or, in a window that starts at address 0, the top of the address space. -/
theorem findCandidate_spec (hok : ∀ b ∈ allocs, BlockOk b) (hk : k < 64) {fuel c r : ℕ}
    (hc : 2 ^ k ∣ c) (hlt : c + 2 ^ k < 2 ^ 64)
    (h : findCandidate allocs winStart (2 ^ k) fuel c = some r) :
    (r ≤ c ∧ 2 ^ k ∣ r ∧ (winStart ≤ r → FreePlace allocs (2 ^ k) r) ∧
      ∀ c', 2 ^ k ∣ c' → r < c' → c' ≤ c → ¬FreePlace allocs (2 ^ k) c') ∨
    (winStart = 0 ∧ r = 2 ^ 64 - 2 ^ k ∧
      ∀ c', 2 ^ k ∣ c' → c' ≤ c → ¬FreePlace allocs (2 ^ k) c') := by
  have hpow := Nat.two_pow_pos k
  induction fuel generalizing c with
  | zero => exact absurd h (by simp [findCandidate])
  | succ fuel ih =>
    rw [findCandidate] at h
    split_ifs at h with hwin
    · cases hfind : allocs.find? (MmioBlock.conflicts c (2 ^ k)) with
      | none =>
        rw [hfind] at h
        obtain rfl := Option.some.inj h
        exact .inl ⟨le_rfl, hc, fun _ => (FreePlace.find?_eq_none hok hpow hlt).mp hfind,
          fun c' _ hlt' hle => absurd hle (not_le.mpr hlt')⟩
      | some b =>
        rw [hfind] at h
        have hmem := List.mem_of_find?_eq_some hfind
        have hconf := List.find?_some hfind
        have hbase : b.base < 2 ^ 64 := by
          have := (hok b hmem).lt
          omega
        have hpass : ∀ c', 2 ^ k ∣ c' → (placeBelow b.base (2 ^ k) < c' ∨ b.base < 2 ^ k) →
            c' ≤ c → ¬FreePlace allocs (2 ^ k) c' := fun _ =>
          not_freePlace_of_conflicts hok hmem hk hlt hconf
        obtain ⟨hb, -, ⟨hle, hnext⟩ | ⟨hsmall, hnext⟩⟩ :=
          placeBelow_of_conflicts hbase hk hc (by omega) hconf
        · obtain ⟨hr, hdvd, hfree, hskip⟩ | ⟨hzero, htop, hskip⟩ :=
            ih (dvd_placeBelow hk hbase) (by omega) h
          · refine .inl ⟨by omega, hdvd, hfree, fun c' hc' hlt' hle' => ?_⟩
            obtain hin | hout := le_or_gt c' (placeBelow b.base (2 ^ k))
            · exact hskip c' hc' hlt' hin
            · exact hpass c' hc' (.inl hout) hle'
          · refine .inr ⟨hzero, htop, fun c' hc' hle' => ?_⟩
            obtain hin | hout := le_or_gt c' (placeBelow b.base (2 ^ k))
            · exact hskip c' hc' hin
            · exact hpass c' hc' (.inl hout) hle'
        · have hc0 := eq_zero_of_conflicts (hok b hmem) hc hconf hsmall
          refine .inr ⟨by omega, ?_, fun c' hc' => hpass c' hc' (.inr hsmall)⟩
          -- nothing is in the way at the top
          have hnone : allocs.find? (MmioBlock.conflicts (2 ^ 64 - 2 ^ k) (2 ^ k)) = none := by
            refine List.find?_eq_none.mpr fun b' _ => ?_
            rw [conflicts_iff, Nat.sub_add_cancel (by omega), Nat.mod_self]
            exact fun hb' => Nat.not_lt_zero _ hb'.2
          cases fuel with
          | zero => exact absurd h (by simp [findCandidate])
          | succ fuel =>
            simp only [findCandidate, hnext, hnone] at h
            rw [if_pos (by omega)] at h
            exact (Option.some.inj h).symm
    · obtain rfl := Option.some.inj h
      exact .inl ⟨le_rfl, hc, fun hwin' => absurd hwin' hwin,
        fun c' _ hlt' hle => absurd hle (not_le.mpr hlt')⟩

/-! ### RAM -/

/-- The map that `pmem_init` makes is one of page numbers. -/
theorem pagesBelow52_pmemInit (e820Map : List E820Entry) :
    PagesBelow52 (pmemInit e820Map).pmMap := by
  intro seg hseg
  rw [mem_pmemInit] at hseg
  obtain ⟨-, raw, hraw, hstop⟩ := bounds_of_mem_mergeSegments seg hseg
  obtain ⟨e, -, he⟩ := List.mem_filterMap.mp hraw
  obtain ⟨stop, hshift⟩ : ∃ stop : BitVec 64, raw.stop = stop >>> pageShift := by
    simp only [rawSegment] at he
    split_ifs at he <;> exact ⟨_, (congrArg PmSegment.stop (Option.some.inj he)).symm⟩
  rw [← hstop, hshift, BitVec.toNat_ushiftRight, Nat.shiftRight_eq_div_pow]
  exact Nat.div_lt_of_lt_mul stop.isLt

/-- The bytes of a segment are those that the code compares with. -/
theorem PmSegment.mem_bytes_of {seg : PmSegment} (hpage : seg.stop.toNat < 2 ^ 52) {a : ℕ}
    (ha : a ∈ seg.bytes) :
    (seg.start <<< pageShift).toNat ≤ a ∧ a < (seg.stop <<< pageShift).toNat := by
  obtain ⟨hle, hlt⟩ := ha
  have hsize : pageSize = 2 ^ pageShift := by decide
  have hstart : seg.start.toNat < 2 ^ 52 :=
    (Nat.lt_of_mul_lt_mul_right (hle.trans_lt hlt)).trans hpage
  rw [BitVec.toNat_shiftLeft, BitVec.toNat_shiftLeft, Nat.shiftLeft_eq, Nat.shiftLeft_eq,
    ← hsize, Nat.mod_eq_of_lt, Nat.mod_eq_of_lt]
  · exact ⟨hle, hlt⟩
  · rw [show pageSize = 4096 from rfl]
    omega
  · rw [show pageSize = 4096 from rfl]
    omega

theorem disjoint_bytes_of_overlapsRam (hpages : PagesBelow52 pmMap) {addr : ℕ}
    (hlt : addr + size < 2 ^ 64) (h : overlapsRam pmMap addr size = false) {seg : PmSegment}
    (hseg : seg ∈ pmMap) : Disjoint (MmioBlock.mk addr size).bytes seg.bytes := by
  refine Set.disjoint_left.mpr fun a ⟨hle, hlt'⟩ ha => ?_
  obtain ⟨hstart, hstop⟩ := seg.mem_bytes_of (hpages seg hseg) ha
  refine List.any_eq_false.mp h seg hseg ?_
  rw [Bool.and_eq_true, decide_eq_true_eq, decide_eq_true_eq, Nat.mod_eq_of_lt hlt]
  exact ⟨hle.trans_lt hstop, hstart.trans_lt hlt'⟩

/-- At the top of the address space there never is RAM for `overlaps_ram`. -/
theorem overlapsRam_top (hk : k < 64) : overlapsRam pmMap (2 ^ 64 - 2 ^ k) (2 ^ k) = false := by
  have hpow : 2 ^ k < 2 ^ 64 := Nat.pow_lt_pow_right (by decide) hk
  refine List.any_eq_false.mpr fun seg _ => ?_
  rw [Bool.and_eq_true, decide_eq_true_eq, decide_eq_true_eq, Nat.sub_add_cancel hpow.le,
    Nat.mod_self]
  exact fun h => Nat.not_lt_zero _ h.2

/-! ### The calls -/

section

variable {c : MmioCall}

/-- A call that looks for a place ends its search, and with what `findCandidate_spec` says. -/
theorem MmioCall.exists_search (hok : ∀ b ∈ allocs, BlockOk b) (hle : c.size ≤ c.winEnd.toNat) :
    ∃ r, findCandidate allocs c.winStart.toNat c.size (placeBelow c.winEnd.toNat c.size + 2)
        (placeBelow c.winEnd.toNat c.size) = some r ∧
      ((r + c.size ≤ c.winEnd.toNat ∧ c.size ∣ r ∧
          (c.winStart.toNat ≤ r → FreePlace allocs c.size r) ∧ (r = 0 → ¬c.HasPlace allocs)) ∨
        (c.winStart.toNat = 0 ∧ r = 2 ^ 64 - c.size ∧ ¬c.HasPlace allocs ∧
          ¬FreePlace allocs c.size 0)) := by
  have hk := c.log.isLt
  have hend := c.winEnd.isLt
  have hfirst := placeBelow_add_le hk hend hle
  have hdvd := dvd_placeBelow hk hend
  have hbases : BasesOk allocs := fun b hb => by
    have := (hok b hb).lt
    omega
  have hpow : 0 < c.size := Nat.two_pow_pos _
  rw [← MmioCall.size] at hfirst hdvd
  obtain ⟨r, hr, -⟩ := exists_findCandidate hbases hk hdvd (by omega) (fun _ => le_rfl)
    (Nat.succ_pos _)
  refine ⟨r, hr, ?_⟩
  obtain ⟨hle', hr', hfree, hskip⟩ | ⟨hzero, htop, hskip⟩ :=
    findCandidate_spec hok hk hdvd (show _ + c.size < _ by omega) hr
  · refine .inl ⟨by omega, hr', hfree, fun h0 ⟨addr, hpos, haddr, hin, hfree'⟩ => ?_⟩
    exact hskip addr haddr (h0 ▸ hpos) (le_placeBelow hk hend haddr hin) hfree'
  · refine .inr ⟨hzero, htop, fun ⟨addr, _, haddr, hin, hfree'⟩ => ?_,
      hskip 0 (dvd_zero _) (Nat.zero_le _)⟩
    exact hskip addr haddr (le_placeBelow hk hend haddr hin) hfree'

theorem MmioCall.allocInWindow_of_search (hlen : allocs.length ≠ maxMmioAllocs)
    (hle : c.size ≤ c.winEnd.toNat) {r : ℕ}
    (hr : findCandidate allocs c.winStart.toNat c.size (placeBelow c.winEnd.toNat c.size + 2)
      (placeBelow c.winEnd.toNat c.size) = some r) :
    allocInWindow pmMap allocs c.winStart.toNat c.winEnd.toNat c.size =
      some (if r < c.winStart.toNat ∨ overlapsRam pmMap r c.size then (0, allocs)
        else (r, allocs ++ [⟨r, c.size⟩])) := by
  have hpow : c.size ≠ 0 := (Nat.two_pow_pos _).ne'
  have hskip : ¬(allocs.length = maxMmioAllocs ∨ c.size = 0 ∨ c.winEnd.toNat < c.size) := by
    omega
  simp only [allocInWindow, if_neg hskip, hr, Option.map_some]

/-- A call that gets to address 0 is not sound: it gives out address 0, or, if a block is there
already, the top of the address space. -/
theorem MmioCall.Sound.aboveZero (hok : ∀ b ∈ allocs, BlockOk b)
    (hlen : allocs.length ≠ maxMmioAllocs) (hle : c.size ≤ c.winEnd.toNat)
    (hsound : c.Sound pmMap allocs) : c.AboveZero pmMap allocs := by
  obtain ⟨r, hr, hspec⟩ := c.exists_search hok hle
  rw [MmioCall.Sound, MmioCall.allocInWindow_of_search hlen hle hr] at hsound
  by_contra hnot
  simp only [MmioCall.AboveZero, not_or, not_and, Bool.not_eq_true] at hnot
  obtain ⟨-, -, hstart, hplace, hram⟩ := hnot
  obtain ⟨hin, hdvd, hfree, -⟩ | ⟨-, rfl, -, -⟩ := hspec
  · have hfree := hfree (by omega)
    obtain rfl : r = 0 := by
      by_contra hne
      exact hplace ⟨r, Nat.pos_of_ne_zero hne, hdvd, hin, hfree⟩
    rw [hram hfree, if_neg (by simp; omega)] at hsound
    -- the block is noted, and the result says that there is none
    obtain ⟨-, heq⟩ | ⟨hne, -⟩ := hsound _ _ rfl
    · exact absurd heq (by simp)
    · exact hne rfl
  · rw [MmioCall.size, overlapsRam_top c.log.isLt, if_neg (by simp; omega)] at hsound
    obtain ⟨hzero, -⟩ | ⟨-, -, hfits⟩ := hsound _ _ rfl
    · have := Nat.pow_lt_pow_right (by decide : 1 < 2) c.log.isLt
      omega
    · have hend := c.winEnd.isLt
      have := hfits.inside.2
      rw [MmioCall.size] at this hle
      omega

/-- A call that does not get to address 0 is sound. -/
theorem MmioCall.AboveZero.sound (hpages : PagesBelow52 pmMap) (hok : ∀ b ∈ allocs, BlockOk b)
    (hlen : allocs.length ≠ maxMmioAllocs) (hle : c.size ≤ c.winEnd.toNat)
    (habove : c.AboveZero pmMap allocs) : c.Sound pmMap allocs := by
  have hend := c.winEnd.isLt
  obtain ⟨r, hr, hspec⟩ := c.exists_search hok hle
  intro addr allocs' h
  rw [MmioCall.allocInWindow_of_search hlen hle hr] at h
  obtain ⟨hin, hdvd, hfree, hlow⟩ | ⟨hstart, -, hplace, hzero⟩ := hspec
  · split_ifs at h with hfail
    · cases h
      exact .inl ⟨rfl, rfl⟩
    · cases h
      obtain ⟨hwin, hram⟩ := not_or.mp hfail
      rw [Bool.not_eq_true] at hram
      refine .inr ⟨fun h0 => ?_, rfl, hdvd, ⟨by omega, hin⟩, hfree (by omega), fun seg =>
        disjoint_bytes_of_overlapsRam hpages (by omega) hram⟩
      obtain hlen' | hshort | hstart | hplace | ⟨-, hram0⟩ := habove
      · exact hlen hlen'
      · omega
      · omega
      · exact hlow h0 hplace
      · rw [h0, hram0] at hram
        exact Bool.noConfusion hram
  -- the search has wrapped, so it has been at address 0, and a block was in the way there
  · obtain hlen' | hshort | hstart' | hplace' | ⟨hfree, -⟩ := habove
    · exact absurd hlen' hlen
    · omega
    · omega
    · exact absurd hplace' hplace
    · exact absurd hfree hzero

/-- One call is sound exactly when it does not get to address 0. -/
theorem MmioCall.sound_iff (hpages : PagesBelow52 pmMap) (hok : ∀ b ∈ allocs, BlockOk b) :
    c.Sound pmMap allocs ↔ c.AboveZero pmMap allocs := by
  by_cases hlen : allocs.length = maxMmioAllocs
  · refine iff_of_true (fun addr allocs' h => ?_) (.inl hlen)
    rw [allocInWindow, if_pos (.inl hlen)] at h
    cases h
    exact .inl ⟨rfl, rfl⟩
  obtain hshort | hle := lt_or_ge c.winEnd.toNat c.size
  · refine iff_of_true (fun addr allocs' h => ?_) (.inr (.inl hshort))
    rw [allocInWindow, if_pos (.inr (.inr hshort))] at h
    cases h
    exact .inl ⟨rfl, rfl⟩
  exact ⟨MmioCall.Sound.aboveZero hok hlen hle, MmioCall.AboveZero.sound hpages hok hlen hle⟩

/-- A sound call keeps the blocks that were given out as they are to be. -/
theorem MmioCall.Sound.blockOk (h : c.Sound pmMap allocs) (hok : ∀ b ∈ allocs, BlockOk b)
    {allocs' : List MmioBlock} (hstep : c.step pmMap allocs = some allocs') :
    ∀ b ∈ allocs', BlockOk b := by
  obtain ⟨⟨addr, _⟩, heq, rfl⟩ := Option.map_eq_some_iff.mp hstep
  obtain ⟨-, rfl⟩ | ⟨hne, rfl, hfits⟩ := h _ _ heq
  · exact hok
  · intro b hb
    obtain hb | hb := List.mem_append.mp hb
    · exact hok b hb
    · obtain rfl := List.mem_singleton.mp hb
      exact ⟨Nat.pos_of_ne_zero hne, ⟨c.log.val, rfl, hfits.aligned⟩,
        hfits.inside.2.trans_lt c.winEnd.isLt⟩

/-- Every call ends. -/
theorem MmioCall.exists_step (pmMap : List PmSegment) (c : MmioCall) (hbases : BasesOk allocs) :
    ∃ allocs', c.step pmMap allocs = some allocs' ∧ BasesOk allocs' := by
  rw [MmioCall.step, allocInWindow]
  split_ifs with hskip
  · exact ⟨allocs, rfl, hbases⟩
  -- the search ends, since every candidate is lower than the one before it
  · have hk := c.log.isLt
    have hle : c.size ≤ c.winEnd.toNat := by omega
    have hfirst := placeBelow_add_le hk c.winEnd.isLt hle
    have hlt : placeBelow c.winEnd.toNat (2 ^ c.log.val) < 2 ^ 64 :=
      (Nat.le_of_add_right_le hfirst).trans_lt c.winEnd.isLt
    obtain ⟨r, hr, hlt⟩ : ∃ r, findCandidate allocs c.winStart.toNat c.size
        (placeBelow c.winEnd.toNat c.size + 2) (placeBelow c.winEnd.toNat c.size) = some r ∧
          r < 2 ^ 64 :=
      exists_findCandidate hbases hk (dvd_placeBelow hk c.winEnd.isLt) hlt (fun _ => le_rfl)
        (Nat.succ_pos _)
    simp only [hr, Option.map_some]
    refine ⟨_, rfl, ?_⟩
    split_ifs
    · exact hbases
    · intro b hb
      obtain hb | hb := List.mem_append.mp hb
      · exact hbases b hb
      · exact List.mem_singleton.mp hb ▸ hlt

end

/-- **Addresses for BARs.** The loop ends in every call, and the calls are all sound exactly when
none of them gets to address 0.

The calls are any sequence, with windows of several bridges that may overlap, and sizes of any
power of two below `2 ^ 64`. The candidates go down past the blocks in the way, so that the loop
ends needs an argument only where one of these lies below the size asked for: the next candidate
is then at the top of the address space. -/
theorem mmioAllocs_sound_iff (hpages : PagesBelow52 pmMap) (calls : List MmioCall) :
    ((∃ allocs, Executions.exec (MmioCall.step pmMap) calls [] = some allocs) ∧
        Executions.Always (MmioCall.step pmMap) (MmioCall.Sound pmMap) calls []) ↔
      Executions.Always (MmioCall.step pmMap) (MmioCall.AboveZero pmMap) calls [] := by
  have hends : ∃ allocs, Executions.exec (MmioCall.step pmMap) calls [] = some allocs :=
    Executions.exists_exec (fun c _ => c.exists_step pmMap) calls
      (fun _ h => absurd h List.not_mem_nil : BasesOk [])
  rw [and_iff_right hends]
  exact Executions.always_congr (fun c _ hok => c.sound_iff hpages hok)
    (fun c _ _ habove hok => ((c.sound_iff hpages hok).mpr habove).blockOk hok)
    (fun _ h => absurd h List.not_mem_nil)

/-- Two calls on QEMU, with the window for its root bus. -/
theorem mmioAllocs_sound_iff_qemu :
    PagesBelow52 [⟨0x40000#64, 0x80000#64⟩] ∧
      Executions.Always (MmioCall.step [⟨0x40000#64, 0x80000#64⟩])
        (MmioCall.Sound [⟨0x40000#64, 0x80000#64⟩])
        [⟨0x10000000#64, 0x3EFF0000#64, 14⟩, ⟨0x10000000#64, 0x3EFF0000#64, 12⟩] [] := by
  have hpages : PagesBelow52 [⟨0x40000#64, 0x80000#64⟩] := by simp [PagesBelow52]
  refine ⟨hpages, ((mmioAllocs_sound_iff hpages _).mpr (Executions.Always.of_forall ?_)).2⟩
  intro c hc allocs
  have hstart : c.winStart = 0x10000000#64 := by
    simp only [List.mem_cons, List.not_mem_nil, or_false] at hc
    obtain rfl | rfl := hc <;> rfl
  exact .inr (.inr (.inl (by rw [hstart]; decide)))

/-- Three calls for 128MB each in the 256MB from address 0: the third result is not in there. -/
theorem mmioAllocs_not_sound_lowEcam :
    ¬Executions.Always (MmioCall.step [⟨0x40000#64, 0x80000#64⟩])
      (MmioCall.Sound [⟨0x40000#64, 0x80000#64⟩])
      (List.replicate 3 ⟨0#64, 0x10000000#64, 27⟩) [] := by
  intro h
  obtain ⟨hzero, -⟩ | ⟨-, -, hfits⟩ := h (List.replicate 2 ⟨0#64, 0x10000000#64, 27⟩)
    ⟨0#64, 0x10000000#64, 27⟩ [] [⟨0x8000000, 0x8000000⟩, ⟨0, 0x8000000⟩] rfl (by decide)
    (2 ^ 64 - 0x8000000)
    [⟨0x8000000, 0x8000000⟩, ⟨0, 0x8000000⟩, ⟨2 ^ 64 - 0x8000000, 0x8000000⟩] (by decide)
  · exact absurd hzero (by decide)
  · exact absurd hfits.inside.2 (by decide)

end Memtest
