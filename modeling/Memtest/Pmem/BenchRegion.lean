import Mathlib.Data.List.TakeWhile
import Memtest.Tests.ChunkSpec

/-!
# Where the bandwidth benchmark works (`system/x86/membw.c`)

`measure_memory_bandwidth` looks for a place for two buffers in the memory map. If there is none it
makes them shorter and looks again. Sizes and addresses are words of the machine and wrap: a place
behind which the address space ends looks as if it ended far below. And nothing is known of what the
boot loader and the firmware have left in the memory of the map.
-/

namespace Memtest

/-- A `size_t` or a `uintptr_t`. -/
abbrev Size (arch : Arch) := BitVec arch.bits

/-- `pm_map_t`: the pages from `start` up to, not including, `stop` (`end` in the source). -/
structure PmRange (arch : Arch) where
  start : Size arch
  stop : Size arch
  deriving DecidableEq

/-- What the benchmark finds: the sizes of the caches in KB, the memory map, the program from
`_start` to `_end`, and the boot data, as the places from an address up to another one that are
still to be read. -/
structure Bench (arch : Arch) where
  l1Cache : BitVec 32
  l2Cache : BitVec 32
  l3Cache : BitVec 32
  pmMap : List (PmRange arch)
  progStart : Size arch
  progEnd : Size arch
  bootData : List (ℕ × ℕ)

/-- The buffers that are copied between, and the lengths that are copied. -/
structure BenchBuffers (arch : Arch) where
  src : Size arch
  dst : Size arch
  maxLen : Size arch
  l1Len : Size arch
  l2Len : Size arch
  l3Len : Size arch
  ramLen : Size arch
  deriving DecidableEq

namespace Bench

variable {arch : Arch}

/-! ### The code -/

/-- `COPY_BLOCK_BYTES`. -/
def copyBlockBytes : (arch : Arch) → Size arch
  | .b32 => 4
  | .b64 => 128

/-- `BENCH_MIN_START_ADR`. -/
def benchMinStartAdr : Size arch := BitVec.ofNat _ 0x1000000

/-- `BENCH_ALIGN`. -/
def benchAlign : Size arch := BitVec.ofNat _ 64

/-- `BENCH_DST_SKEW`. -/
def benchDstSkew : Size arch := BitVec.ofNat _ 0

/-- `MIN_RAM_WORKSET_BYTES`. -/
def minRamWorksetBytes : Size arch := BitVec.ofNat _ (8 * 1024 * 1024)

/-- `VM_PINNED_SIZE`: the pages of 2 GB. -/
def vmPinnedSize : Size arch := BitVec.ofNat _ (2 <<< (30 - pageShift))

/-- `align_down_size`. -/
def alignDownSize (v a : Size arch) : Size arch := v &&& ~~~(a - BitVec.ofNat _ 1)

/-- `align_up_ptr`. -/
def alignUpPtr (v a : Size arch) : Size arch :=
  alignDownSize (v + (a - BitVec.ofNat _ 1)) a

/-- `choose_cache_len_bytes`. Two thirds of the cache are used, but no more than the largest
working set, and at least twice the next lower cache; seven eighths of the cache bound this in
turn. Half of that, cut to whole blocks, is copied. A cache of less than two blocks is not
measured. -/
def chooseCacheLenBytes (cacheBytes lowerCacheBytes maxWorksetBytes : Size arch) : Size arch :=
  if cacheBytes < 2 * copyBlockBytes arch then 0
  else
    let ws := cacheBytes * 2 / 3
    let ws := if maxWorksetBytes ≠ 0 ∧ ws > maxWorksetBytes then maxWorksetBytes else ws
    let minWs := lowerCacheBytes * 2
    let wsMax := cacheBytes * 7 / 8
    let ws :=
      if lowerCacheBytes ≠ 0 ∧ ws < minWs then (if minWs ≤ wsMax then minWs else wsMax) else ws
    let ws := if ws > wsMax then wsMax else ws
    let len := alignDownSize (ws / 2) (copyBlockBytes arch)
    if len < copyBlockBytes arch then 0 else len

/-- `choose_ram_len_bytes`. -/
def chooseRamLenBytes (llcBytes : Size arch) : Size arch :=
  let ws := if llcBytes ≠ 0 then llcBytes * 6 else minRamWorksetBytes
  let ws := if ws < minRamWorksetBytes then minRamWorksetBytes else ws
  alignDownSize (ws / 2) (copyBlockBytes arch)

/-- The size of a cache in bytes. -/
def cacheBytes (cache : BitVec 32) : Size arch :=
  if 0 < cache.toInt then cache.setWidth arch.bits * 1024 else 0

variable (inp : Bench arch)

/-- The body of the loop in `find_bench_region`: the start address in a segment, if there is room
for the bytes. -/
def place (bytesNeeded : Size arch) (seg : PmRange arch) : Option (Size arch) :=
  let tryStart :=
    if seg.start <<< pageShift < benchMinStartAdr then
      if seg.stop <<< pageShift ≥ benchMinStartAdr + bytesNeeded then some benchMinStartAdr
      else none
    else some (seg.start <<< pageShift)
  tryStart.bind fun tryStart =>
    -- the program is avoided
    let tryStart :=
      if tryStart < inp.progEnd ∧ tryStart + bytesNeeded > inp.progStart then inp.progEnd
      else tryStart
    let endLimit := (if seg.stop < vmPinnedSize then seg.stop else vmPinnedSize) <<< pageShift
    if tryStart + bytesNeeded ≤ endLimit then some tryStart else none

/-- `find_bench_region`, on a list of segments. -/
def findBenchRegion (bytesNeeded : Size arch) : List (PmRange arch) → Size arch
  | [] => 0
  | seg :: segs =>
      if seg.start < vmPinnedSize then
        match inp.place bytesNeeded seg with
        | some benchStartAdr => benchStartAdr
        | none => findBenchRegion bytesNeeded segs
      else 0

/-- The size of the first level. -/
def l1Len : Size arch :=
  if cacheBytes inp.l1Cache ≠ (0 : Size arch) then chooseCacheLenBytes (cacheBytes inp.l1Cache) 0 0
  else 0

/-- The size of the second level. -/
def l2Len : Size arch :=
  if cacheBytes inp.l2Cache ≠ (0 : Size arch) then
    chooseCacheLenBytes (cacheBytes inp.l2Cache) (cacheBytes inp.l1Cache) (2 * 1024 * 1024)
  else 0

/-- The size of the third level. -/
def l3Len : Size arch :=
  if cacheBytes inp.l3Cache ≠ (0 : Size arch) then
    chooseCacheLenBytes (cacheBytes inp.l3Cache)
      (if cacheBytes inp.l2Cache ≠ (0 : Size arch) then cacheBytes inp.l2Cache
        else cacheBytes inp.l1Cache) (16 * 1024 * 1024)
  else 0

/-- The size of the last level. -/
def llcBytes : Size arch :=
  if cacheBytes inp.l3Cache ≠ (0 : Size arch) then cacheBytes inp.l3Cache
  else if cacheBytes inp.l2Cache ≠ (0 : Size arch) then cacheBytes inp.l2Cache
  else cacheBytes inp.l1Cache

/-- `max_len`. -/
def maxLen (ramLen : Size arch) : Size arch :=
  let maxLen := ramLen
  let maxLen := if inp.l3Len > maxLen then inp.l3Len else maxLen
  let maxLen := if inp.l2Len > maxLen then inp.l2Len else maxLen
  if inp.l1Len > maxLen then inp.l1Len else maxLen

/-- `bytes_needed`. -/
def bytesNeeded (ramLen : Size arch) : Size arch :=
  2 * inp.maxLen ramLen + 2 * benchAlign + benchDstSkew

/-- The next length of the RAM buffer, if it can be made shorter. -/
def shrink (ramLen : Size arch) : Option (Size arch) :=
  if ramLen ≤ BitVec.ofNat _ (256 * 1024) then none
  else
    let ramLen := alignDownSize (ramLen / 2) (copyBlockBytes arch)
    if ramLen < copyBlockBytes arch then none else some ramLen

theorem toNat_alignDownSize_le (v a : Size arch) : (alignDownSize v a).toNat ≤ v.toNat := by
  rw [alignDownSize, BitVec.toNat_and]
  exact Nat.and_le_left

/-- The RAM buffer gets shorter. -/
theorem shrink_lt {ramLen ramLen' : Size arch} (h : shrink ramLen = some ramLen') :
    ramLen'.toNat < ramLen.toNat := by
  rw [shrink] at h
  split_ifs at h with hmin
  dsimp only at h
  split_ifs at h
  obtain rfl := Option.some.inj h
  have hpos : 0 < ramLen.toNat := by
    refine Nat.pos_of_ne_zero fun hzero => hmin ?_
    rw [BitVec.le_def, hzero]
    exact Nat.zero_le _
  calc (alignDownSize (ramLen / 2) (copyBlockBytes arch)).toNat
      ≤ (ramLen / 2).toNat := toNat_alignDownSize_le _ _
    _ = ramLen.toNat / 2 := by
      rw [BitVec.toNat_udiv]
      cases arch <;> rfl
    _ < ramLen.toNat := Nat.div_lt_self hpos (by decide)

/-- The loop of `measure_memory_bandwidth`: the start address and the length of the RAM buffer. -/
def benchLoop (inp : Bench arch) (ramLen : Size arch) : Option (Size arch × Size arch) :=
  let benchStartAdr := inp.findBenchRegion (inp.bytesNeeded ramLen) inp.pmMap
  if benchStartAdr ≠ 0 then some (benchStartAdr, ramLen)
  else
    match _h : shrink ramLen with
    | none => none
    | some ramLen => benchLoop inp ramLen
termination_by ramLen.toNat
decreasing_by exact shrink_lt _h

/-- The buffers at a start address. -/
def buffers (benchStartAdr ramLen : Size arch) : BenchBuffers arch :=
  let src := alignUpPtr benchStartAdr benchAlign
  { src := src
    dst := alignUpPtr (src + inp.maxLen ramLen + benchDstSkew) benchAlign
    maxLen := inp.maxLen ramLen
    l1Len := inp.l1Len
    l2Len := inp.l2Len
    l3Len := inp.l3Len
    ramLen := ramLen }

/-- `measure_memory_bandwidth`, up to where it starts to measure. -/
def measureMemoryBandwidth : Option (BenchBuffers arch) :=
  if inp.llcBytes = 0 then none
  else if chooseRamLenBytes inp.llcBytes = 0 then none
  else (inp.benchLoop (chooseRamLenBytes inp.llcBytes)).map fun p => inp.buffers p.1 p.2

/-! ### The search -/

/-- The lengths of the RAM buffer that are tried one after the other. -/
def ramLens (ramLen : Size arch) : List (Size arch) :=
  match _h : shrink ramLen with
  | none => [ramLen]
  | some ramLen' => ramLen :: ramLens ramLen'
termination_by ramLen.toNat
decreasing_by exact shrink_lt _h

/-- The segments that are looked at. -/
def lowSegments : List (PmRange arch) := inp.pmMap.takeWhile fun seg => seg.start < vmPinnedSize

/-- The first place there is room at, for the first length there is any room for. The lengths are
tried from the longest on, and for each of them the segments in the order of the map; whether
there is room is decided as the code does, in words of the machine. -/
def FirstFit (ramLen addr : Size arch) : Prop :=
  inp.llcBytes ≠ 0 ∧ chooseRamLenBytes inp.llcBytes ≠ 0 ∧
    ∃ longer shorter, ramLens (chooseRamLenBytes inp.llcBytes) = longer ++ ramLen :: shorter ∧
      (∀ ramLen' ∈ longer, ∀ seg ∈ inp.lowSegments,
        inp.place (inp.bytesNeeded ramLen') seg = none) ∧
      ∃ before seg after, inp.lowSegments = before ++ seg :: after ∧
        inp.place (inp.bytesNeeded ramLen) seg = some addr ∧
        ∀ seg' ∈ before, inp.place (inp.bytesNeeded ramLen) seg' = none

/-- The next multiple of 64. -/
def alignUp (n : ℕ) : ℕ := (n + 63) / 64 * 64

/-- The address space does not end behind a place for two buffers, and none of them is where the
boot data is. -/
structure Suits (addr len : ℕ) : Prop where
  noWrap : addr + 2 * len + 128 < 2 ^ arch.bits
  bootData : ∀ d ∈ inp.bootData, (alignUp addr + len ≤ d.1 ∨ d.2 ≤ alignUp addr) ∧
    (alignUp (alignUp addr + len) + len ≤ d.1 ∨ d.2 ≤ alignUp (alignUp addr + len))

/-- Two stretches of memory have nothing in common. -/
def Apart (a n b m : ℕ) : Prop := a + n ≤ b ∨ b + m ≤ a

/-- A buffer is in free memory: in one segment, neither below the lowest start address nor behind
the pinned memory, and not where the program or the boot data is. The numbers are natural ones, so
a buffer that wraps is in no segment. -/
structure InFreeRam (seg : PmRange arch) (addr len : ℕ) : Prop where
  segment : seg.start.toNat * pageSize ≤ addr ∧ addr + len ≤ seg.stop.toNat * pageSize
  low : 0x1000000 ≤ addr
  pinned : addr + len ≤ 0x80000 * pageSize
  program : addr + len ≤ inp.progStart.toNat ∨ inp.progEnd.toNat ≤ addr
  bootData : ∀ d ∈ inp.bootData, addr + len ≤ d.1 ∨ d.2 ≤ addr

/-- Both buffers are in free memory, in one and the same segment, and have nothing in common. What
is copied fits into them. -/
structure Free (b : BenchBuffers arch) : Prop where
  apart : Apart b.src.toNat b.maxLen.toNat b.dst.toNat b.maxLen.toNat
  free : ∃ seg ∈ inp.pmMap, inp.InFreeRam seg b.src.toNat b.maxLen.toNat ∧
    inp.InFreeRam seg b.dst.toNat b.maxLen.toNat
  copies : b.l1Len ≤ b.maxLen ∧ b.l2Len ≤ b.maxLen ∧ b.l3Len ≤ b.maxLen ∧ b.ramLen ≤ b.maxLen

variable {inp}

theorem findBenchRegion_eq (bytesNeeded : Size arch) (segs : List (PmRange arch)) :
    inp.findBenchRegion bytesNeeded segs =
      ((segs.takeWhile fun seg => seg.start < vmPinnedSize).findSome? (inp.place bytesNeeded)).getD
        0 := by
  induction segs with
  | nil => rfl
  | cons seg segs ih =>
    rw [findBenchRegion]
    split_ifs with hlow
    · rw [List.takeWhile_cons, if_pos (decide_eq_true hlow), List.findSome?_cons]
      split
      · rename_i h
        rw [h]
        rfl
      · rename_i h
        rw [h, ih]
    · rw [List.takeWhile_cons, if_neg (by simpa using hlow)]
      rfl

/-- A word has 32 bits at least. -/
theorem two_pow_le (arch : Arch) : 2 ^ 32 ≤ 2 ^ arch.bits :=
  Nat.pow_le_pow_right (by decide) (by cases arch <;> decide)

theorem toNat_vmPinnedSize : (vmPinnedSize : Size arch).toNat = 0x80000 := by cases arch <;> rfl

theorem toNat_benchMinStartAdr : (benchMinStartAdr : Size arch).toNat = 0x1000000 := by
  cases arch <;> rfl

theorem toNat_benchAlign : (benchAlign : Size arch).toNat = 64 := by cases arch <;> rfl

/-- What `align_up_ptr` adds and masks. -/
theorem toNat_benchAlign_sub : (benchAlign - BitVec.ofNat _ 1 : Size arch).toNat = 63 := by
  cases arch <;> rfl

theorem toNat_benchDstSkew : (benchDstSkew : Size arch).toNat = 0 := by cases arch <;> rfl

/-- The address of a page below the pinned limit. -/
theorem toNat_shiftLeft {page : Size arch} (h : page.toNat ≤ 0x80000) :
    (page <<< pageShift).toNat = page.toNat * pageSize := by
  have hbits := two_pow_le arch
  have hpow : page.toNat <<< pageShift = page.toNat * pageSize := Nat.shiftLeft_eq _ _
  have hlt : page.toNat * pageSize < 2 ^ arch.bits :=
    (Nat.mul_le_mul_right pageSize h).trans_lt (lt_of_lt_of_le (by decide) hbits)
  rw [BitVec.toNat_shiftLeft, hpow, Nat.mod_eq_of_lt hlt]

/-- What is known of the place in a segment. As long as the address space does not end behind it,
the program is not there. -/
theorem place_spec {bytesNeeded addr : Size arch} {seg : PmRange arch}
    (hlow : seg.start < vmPinnedSize) (h : inp.place bytesNeeded seg = some addr) :
    seg.start.toNat * pageSize ≤ addr.toNat ∧ 0x1000000 ≤ addr.toNat ∧
      (addr + bytesNeeded).toNat ≤ min seg.stop.toNat 0x80000 * pageSize ∧
      (addr.toNat + bytesNeeded.toNat < 2 ^ arch.bits →
        addr.toNat + bytesNeeded.toNat ≤ inp.progStart.toNat ∨
          inp.progEnd.toNat ≤ addr.toNat) := by
  have hstart : (seg.start <<< pageShift).toNat = seg.start.toNat * pageSize := by
    rw [BitVec.lt_def, toNat_vmPinnedSize] at hlow
    exact toNat_shiftLeft hlow.le
  have hlimit : ((if seg.stop < vmPinnedSize then seg.stop else vmPinnedSize) <<< pageShift).toNat =
      min seg.stop.toNat 0x80000 * pageSize := by
    split_ifs with hstop
    · rw [BitVec.lt_def, toNat_vmPinnedSize] at hstop
      rw [toNat_shiftLeft hstop.le, Nat.min_eq_left hstop.le]
    · rw [BitVec.lt_def, toNat_vmPinnedSize, not_lt] at hstop
      rw [toNat_shiftLeft (toNat_vmPinnedSize).le, toNat_vmPinnedSize, Nat.min_eq_right hstop]
  rw [place] at h
  obtain ⟨tryStart, htry, h⟩ := Option.bind_eq_some_iff.mp h
  -- where it is tried first
  have hfirst : seg.start.toNat * pageSize ≤ tryStart.toNat ∧ 0x1000000 ≤ tryStart.toNat := by
    split_ifs at htry with hmin hroom
    · obtain rfl := Option.some.inj htry
      rw [BitVec.lt_def, hstart, toNat_benchMinStartAdr] at hmin
      rw [toNat_benchMinStartAdr]
      exact ⟨hmin.le, le_rfl⟩
    · obtain rfl := Option.some.inj htry
      rw [BitVec.lt_def, hstart, toNat_benchMinStartAdr, not_lt] at hmin
      rw [hstart]
      exact ⟨le_rfl, hmin⟩
  dsimp only at h
  generalize (if seg.stop < vmPinnedSize then seg.stop else vmPinnedSize) <<< pageShift = endLimit
    at h hlimit
  split_ifs at h with hprog hfits hfits
  · obtain rfl := Option.some.inj h
    rw [BitVec.le_def, hlimit] at hfits
    have hbehind := BitVec.lt_def.mp hprog.1
    exact ⟨by omega, by omega, hfits, fun _ => .inr le_rfl⟩
  · obtain rfl := Option.some.inj h
    rw [BitVec.le_def, hlimit] at hfits
    refine ⟨hfirst.1, hfirst.2, hfits, fun hwrap => ?_⟩
    rcases not_and_or.mp hprog with hbehind | hbefore
    · exact .inr (not_lt.mp fun hlt => hbehind (BitVec.lt_def.mpr hlt))
    · refine .inl (not_lt.mp fun hlt => hbefore (BitVec.lt_def.mpr ?_))
      rw [BitVec.toNat_add, Nat.mod_eq_of_lt hwrap]
      exact hlt

theorem mem_lowSegments {seg : PmRange arch} (h : seg ∈ inp.lowSegments) :
    seg ∈ inp.pmMap ∧ seg.start < vmPinnedSize := by
  rw [lowSegments] at h
  exact ⟨List.takeWhile_subset _ h, of_decide_eq_true (List.mem_takeWhile_imp h :)⟩

/-- No place is at the address 0. -/
theorem findBenchRegion_ne_zero_iff (bytesNeeded : Size arch) :
    inp.findBenchRegion bytesNeeded inp.pmMap ≠ 0 ↔
      ∃ addr, inp.lowSegments.findSome? (inp.place bytesNeeded) = some addr := by
  rw [findBenchRegion_eq, ← lowSegments]
  rcases h : inp.lowSegments.findSome? (inp.place bytesNeeded) with _ | addr
  · exact iff_of_false (fun hne => hne rfl) fun ⟨_, h⟩ => nomatch h
  · obtain ⟨before, seg, after, hsegs, hplace, -⟩ := List.findSome?_eq_some_iff.mp h
    have hseg : seg ∈ inp.lowSegments := hsegs ▸ List.mem_append_right _ List.mem_cons_self
    have hspec := place_spec (mem_lowSegments hseg).2 hplace
    refine iff_of_true (fun hzero => ?_) ⟨addr, rfl⟩
    rw [Option.getD_some] at hzero
    rw [hzero] at hspec
    exact absurd hspec.2.1 (by simp)

theorem ramLens_of_none {ramLen : Size arch} (h : shrink ramLen = none) :
    ramLens ramLen = [ramLen] := by
  rw [ramLens]
  split
  · rfl
  · rename_i h'
    exact nomatch h.symm.trans h'

theorem ramLens_of_some {ramLen ramLen' : Size arch} (h : shrink ramLen = some ramLen') :
    ramLens ramLen = ramLen :: ramLens ramLen' := by
  rw [ramLens]
  split
  · rename_i h'
    exact nomatch h.symm.trans h'
  · rename_i h'
    obtain rfl := Option.some.inj (h.symm.trans h')
    rfl

/-- The first length that is tried is the one that the loop begins with. -/
theorem exists_ramLens (ramLen : Size arch) : ∃ shorter, ramLens ramLen = ramLen :: shorter := by
  rcases h : shrink ramLen with _ | ramLen'
  · exact ⟨[], ramLens_of_none h⟩
  · exact ⟨_, ramLens_of_some h⟩

/-- The loop finds the first place, for the first length there is any room for. -/
theorem benchLoop_eq_some_iff {ramLen₀ ramLen addr : Size arch} :
    benchLoop inp ramLen₀ = some (addr, ramLen) ↔
      ∃ longer shorter, ramLens ramLen₀ = longer ++ ramLen :: shorter ∧
        (∀ ramLen' ∈ longer, ∀ seg ∈ inp.lowSegments,
          inp.place (inp.bytesNeeded ramLen') seg = none) ∧
        inp.lowSegments.findSome? (inp.place (inp.bytesNeeded ramLen)) = some addr := by
  fun_induction benchLoop inp ramLen₀ with
  | case1 ramLen₀ benchStartAdr hfound =>
    obtain ⟨addr₀, haddr₀⟩ := (findBenchRegion_ne_zero_iff _).mp hfound
    obtain ⟨tail, htail⟩ := exists_ramLens ramLen₀
    have hstart : benchStartAdr = addr₀ := by
      rw [show benchStartAdr = inp.findBenchRegion (inp.bytesNeeded ramLen₀) inp.pmMap from rfl,
        findBenchRegion_eq, ← lowSegments, haddr₀]
      rfl
    rw [hstart, Option.some_inj, Prod.mk.injEq, htail]
    constructor
    · rintro ⟨rfl, rfl⟩
      exact ⟨[], tail, rfl, fun _ h => absurd h List.not_mem_nil, haddr₀⟩
    · rintro ⟨_ | ⟨longest, longer⟩, shorter, hlens, hnone, haddr⟩
      · obtain ⟨rfl, -⟩ := List.cons.inj hlens
        exact ⟨Option.some.inj (haddr₀.symm.trans haddr), rfl⟩
      · -- there is room for the first length already
        obtain ⟨rfl, -⟩ := List.cons.inj hlens
        rw [List.findSome?_eq_none_iff.mpr (hnone _ List.mem_cons_self)] at haddr₀
        exact nomatch haddr₀
  | case2 ramLen₀ benchStartAdr hfound hshrink =>
    refine iff_of_false (fun h => nomatch h) ?_
    rintro ⟨longer, shorter, hlens, -, haddr⟩
    rw [ramLens_of_none hshrink] at hlens
    rcases longer with _ | ⟨longest, longer⟩
    · obtain ⟨rfl, -⟩ := List.cons.inj hlens
      exact hfound ((findBenchRegion_ne_zero_iff _).mpr ⟨addr, haddr⟩)
    · exact absurd (List.cons.inj hlens).2.symm (List.append_ne_nil_of_right_ne_nil _ nofun)
  | case3 ramLen₀ benchStartAdr hfound ramLen' hshrink ih =>
    -- there is no room for this length, so it is one of the longer ones
    have hnone : ∀ seg ∈ inp.lowSegments, inp.place (inp.bytesNeeded ramLen₀) seg = none := by
      refine List.findSome?_eq_none_iff.mp (Option.eq_none_iff_forall_ne_some.mpr fun addr h => ?_)
      exact hfound ((findBenchRegion_ne_zero_iff _).mpr ⟨addr, h⟩)
    rw [ih, ramLens_of_some hshrink]
    constructor
    · rintro ⟨longer, shorter, hlens, hall, haddr⟩
      refine ⟨ramLen₀ :: longer, shorter, congrArg (ramLen₀ :: ·) hlens, ?_, haddr⟩
      exact List.forall_mem_cons.mpr ⟨hnone, hall⟩
    · rintro ⟨_ | ⟨longest, longer⟩, shorter, hlens, hall, haddr⟩
      · obtain ⟨rfl, -⟩ := List.cons.inj hlens
        rw [List.findSome?_eq_none_iff.mpr hnone] at haddr
        exact nomatch haddr
      · obtain ⟨rfl, hrest⟩ := List.cons.inj hlens
        exact ⟨longer, shorter, hrest, (List.forall_mem_cons.mp hall).2, haddr⟩

theorem measureMemoryBandwidth_eq_some_iff {b : BenchBuffers arch} :
    inp.measureMemoryBandwidth = some b ↔
      ∃ ramLen addr, inp.FirstFit ramLen addr ∧ b = inp.buffers addr ramLen := by
  rw [measureMemoryBandwidth]
  split_ifs with hllc hram
  · exact iff_of_false (fun h => nomatch h) fun ⟨_, _, hfit, _⟩ => hfit.1 hllc
  · exact iff_of_false (fun h => nomatch h) fun ⟨_, _, hfit, _⟩ => hfit.2.1 hram
  · rw [Option.map_eq_some_iff]
    constructor
    · rintro ⟨⟨addr, ramLen⟩, hloop, rfl⟩
      obtain ⟨longer, shorter, hlens, hall, haddr⟩ := benchLoop_eq_some_iff.mp hloop
      obtain ⟨before, seg, after, hsegs, hplace, hbefore⟩ := List.findSome?_eq_some_iff.mp haddr
      exact ⟨ramLen, addr, ⟨hllc, hram, longer, shorter, hlens, hall, before, seg, after, hsegs,
        hplace, hbefore⟩, rfl⟩
    · rintro ⟨ramLen, addr, ⟨-, -, longer, shorter, hlens, hall, before, seg, after, hsegs, hplace,
        hbefore⟩, rfl⟩
      refine ⟨(addr, ramLen), benchLoop_eq_some_iff.mpr ⟨longer, shorter, hlens, hall, ?_⟩, rfl⟩
      exact List.findSome?_eq_some_iff.mpr ⟨before, seg, after, hsegs, hplace, hbefore⟩

/-! ### The buffers -/

theorem toNat_alignUpPtr {v : Size arch} (h : v.toNat + 63 < 2 ^ arch.bits) :
    (alignUpPtr v benchAlign).toNat = alignUp v.toNat := by
  have hadd : (v + (benchAlign - BitVec.ofNat _ 1)).toNat = v.toNat + 63 := by
    rw [BitVec.toNat_add, toNat_benchAlign_sub, Nat.mod_eq_of_lt h]
  have hround : (alignUpPtr v benchAlign).toNat = roundDown arch (v.toNat + 63) (2 ^ 6) := by
    rw [← hadd, roundDown, BitVec.ofNat_toNat, BitVec.setWidth_eq]
    rfl
  rw [hround, roundDown_eq h (by cases arch <;> decide)]
  rfl

theorem le_maxLen (ramLen : Size arch) : inp.l1Len ≤ inp.maxLen ramLen ∧
    inp.l2Len ≤ inp.maxLen ramLen ∧ inp.l3Len ≤ inp.maxLen ramLen ∧
    ramLen ≤ inp.maxLen ramLen := by
  rw [maxLen]
  simp only [BitVec.le_def, BitVec.lt_def, gt_iff_lt]
  split_ifs <;> omega

theorem alignUp_bounds (n : ℕ) : n ≤ alignUp n ∧ alignUp n ≤ n + 63 := by
  rw [alignUp]
  omega

theorem toNat_bytesNeeded {ramLen : Size arch}
    (h : 2 * (inp.maxLen ramLen).toNat + 128 < 2 ^ arch.bits) :
    (inp.bytesNeeded ramLen).toNat = 2 * (inp.maxLen ramLen).toNat + 128 := by
  have hbits := two_pow_le arch
  have htwo : (2 : Size arch).toNat = 2 := by cases arch <;> rfl
  rw [bytesNeeded]
  simp only [BitVec.toNat_add, BitVec.toNat_mul, htwo, toNat_benchAlign, toNat_benchDstSkew]
  rw [Nat.mod_eq_of_lt (a := 2 * _) (by omega), Nat.mod_eq_of_lt (a := 2 * 64) (by omega),
    Nat.mod_eq_of_lt (by omega), Nat.mod_eq_of_lt (by omega), Nat.add_zero]

/-- Where the buffers are, if the address space does not end behind them. -/
theorem toNat_buffers {ramLen addr : Size arch}
    (h : addr.toNat + 2 * (inp.maxLen ramLen).toNat + 128 < 2 ^ arch.bits) :
    (inp.buffers addr ramLen).src.toNat = alignUp addr.toNat ∧
      (inp.buffers addr ramLen).dst.toNat =
        alignUp (alignUp addr.toNat + (inp.maxLen ramLen).toNat) := by
  have hbounds := alignUp_bounds addr.toNat
  have hsrc : (inp.buffers addr ramLen).src.toNat = alignUp addr.toNat :=
    toNat_alignUpPtr (by omega)
  have hend : ((inp.buffers addr ramLen).src + inp.maxLen ramLen + benchDstSkew).toNat =
      alignUp addr.toNat + (inp.maxLen ramLen).toNat := by
    rw [BitVec.toNat_add, BitVec.toNat_add, hsrc, toNat_benchDstSkew,
      Nat.mod_eq_of_lt (by omega), Nat.add_zero, Nat.mod_eq_of_lt (by omega)]
  have hdst := toNat_alignUpPtr
    (v := (inp.buffers addr ramLen).src + inp.maxLen ramLen + benchDstSkew) (by omega)
  rw [hend] at hdst
  exact ⟨hsrc, hdst⟩

/-- The buffers at a place that is found are in free memory if and only if the place suits. -/
theorem free_buffers_iff {ramLen addr : Size arch} (hfit : inp.FirstFit ramLen addr) :
    inp.Free (inp.buffers addr ramLen) ↔ inp.Suits addr.toNat (inp.maxLen ramLen).toNat := by
  obtain ⟨-, -, longer, shorter, -, -, before, seg, after, hsegs, hplace, -⟩ := hfit
  have hseg : seg ∈ inp.pmMap ∧ seg.start < vmPinnedSize :=
    mem_lowSegments (hsegs ▸ List.mem_append_right _ List.mem_cons_self)
  obtain ⟨hstart, hmin, hend, hprog⟩ := place_spec hseg.2 hplace
  have hpage : 0x80000 * pageSize = 2 ^ 31 := by decide
  have hbits := two_pow_le arch
  constructor
  · rintro ⟨-, ⟨seg', -, hsrc, hdst⟩, -⟩
    have hlow := hsrc.low
    have hhigh := hsrc.pinned
    have hlow' := hdst.low
    have hhigh' := hdst.pinned
    have hmax : (inp.buffers addr ramLen).maxLen = inp.maxLen ramLen := rfl
    rw [hmax] at hhigh hhigh'
    -- the start address does not wrap when it is rounded up
    have haddr : addr.toNat + 63 < 2 ^ arch.bits := by
      by_contra hwrap
      refine absurd hlow (not_le.mpr ?_)
      calc (inp.buffers addr ramLen).src.toNat
          ≤ (addr + (benchAlign - BitVec.ofNat _ 1)).toNat := toNat_alignDownSize_le _ _
        _ = addr.toNat + 63 - 2 ^ arch.bits := by
          rw [BitVec.toNat_add, toNat_benchAlign_sub, Nat.mod_eq_sub_mod (by omega),
            Nat.mod_eq_of_lt (by omega)]
        _ < 0x1000000 := by omega
    have hround : (inp.buffers addr ramLen).src.toNat = alignUp addr.toNat :=
      toNat_alignUpPtr haddr
    have hbounds := alignUp_bounds addr.toNat
    have hwrap : addr.toNat + 2 * (inp.maxLen ramLen).toNat + 128 < 2 ^ arch.bits := by omega
    refine ⟨hwrap, fun d hd => ?_⟩
    obtain ⟨hsrc', hdst'⟩ := toNat_buffers hwrap
    rw [← hdst', ← hsrc']
    exact ⟨hsrc.bootData d hd, hdst.bootData d hd⟩
  · rintro ⟨hwrap, hboot⟩
    obtain ⟨hsrc, hdst⟩ := toNat_buffers hwrap
    have hneeded : (inp.bytesNeeded ramLen).toNat = 2 * (inp.maxLen ramLen).toNat + 128 :=
      toNat_bytesNeeded (by omega)
    rw [hneeded] at hprog
    rw [BitVec.toNat_add, hneeded, Nat.mod_eq_of_lt (by omega)] at hend
    have hbounds := alignUp_bounds addr.toNat
    have hbounds' := alignUp_bounds (alignUp addr.toNat + (inp.maxLen ramLen).toNat)
    have hsegment :
        addr.toNat + (2 * (inp.maxLen ramLen).toNat + 128) ≤ seg.stop.toNat * pageSize :=
      hend.trans (Nat.mul_le_mul_right _ (min_le_left _ _))
    have hpinned : addr.toNat + (2 * (inp.maxLen ramLen).toNat + 128) ≤ 0x80000 * pageSize :=
      hend.trans (Nat.mul_le_mul_right _ (min_le_right _ _))
    have hprog := hprog (by omega)
    -- both buffers are between the place and the end of what is needed
    have hfree (x : ℕ) (hlow : addr.toNat ≤ x)
        (hhigh : x + (inp.maxLen ramLen).toNat ≤
          addr.toNat + (2 * (inp.maxLen ramLen).toNat + 128))
        (hdata : ∀ d ∈ inp.bootData, x + (inp.maxLen ramLen).toNat ≤ d.1 ∨ d.2 ≤ x) :
        inp.InFreeRam seg x (inp.maxLen ramLen).toNat :=
      ⟨⟨by omega, by omega⟩, by omega, by omega, by omega, hdata⟩
    refine ⟨?_, ⟨seg, hseg.1, ?_, ?_⟩, le_maxLen ramLen⟩
    · rw [hsrc, hdst]
      exact .inl hbounds'.1
    · rw [hsrc]
      exact hfree _ hbounds.1 (by omega) fun d hd => (hboot d hd).1
    · rw [hdst]
      exact hfree _ (by omega) (by omega) fun d hd => (hboot d hd).2

/-- **The bandwidth benchmark.** The benchmark works in free memory if and only if the first
place, for the first length there is any room for, suits.

The sizes of the caches, the map, the place of the program and that of the boot data are
arbitrary. Where there is no place the benchmark is not made, and both sides hold. That the place
avoids the program, that the two buffers are apart and that all that is copied fits into them
needs no condition beyond these. -/
theorem measureMemoryBandwidth_free_iff (inp : Bench arch) :
    (∀ b, inp.measureMemoryBandwidth = some b → inp.Free b) ↔
      ∀ ramLen addr, inp.FirstFit ramLen addr → inp.Suits addr.toNat (inp.maxLen ramLen).toNat := by
  constructor
  · intro hfree ramLen addr hfit
    exact (free_buffers_iff hfit).mp
      (hfree _ (measureMemoryBandwidth_eq_some_iff.mpr ⟨ramLen, addr, hfit, rfl⟩))
  · rintro hsuits b hb
    obtain ⟨ramLen, addr, hfit, rfl⟩ := measureMemoryBandwidth_eq_some_iff.mp hb
    exact (free_buffers_iff hfit).mpr (hsuits ramLen addr hfit)

/-- A machine with 1 GB. The boot loader has left the boot parameters at 18 MB. -/
def bootParamsAt18MB : Bench .b64 where
  l1Cache := 32
  l2Cache := 256
  l3Cache := 8192
  pmMap := [⟨0x1, 0x9f⟩, ⟨0x100, 0x40000⟩]
  progStart := 0x100000
  progEnd := 0x180000
  bootData := [(0x1200000, 0x1201000)]

/-- A machine with a cache of 384 MB. Just below 2 GB there is a segment for the ACPI tables. -/
def cacheOf384MB : Bench .b32 where
  l1Cache := 32
  l2Cache := 1024
  l3Cache := 393216
  pmMap := [⟨0x1, 0x9f⟩, ⟨0x100, 0x7f000⟩, ⟨0x7fe00, 0x7fe10⟩]
  progStart := 0x100000
  progEnd := 0x180000
  bootData := [(0x7fe00000, 0x7fe10000)]

/-- The boot parameters are written over. With a cache of 384 MB, on a machine with 32 bits, so are
the ACPI tables, and the buffers do not fit into the segment. -/
theorem not_free_bootParams :
    (∃ b, bootParamsAt18MB.measureMemoryBandwidth = some b ∧ ¬ bootParamsAt18MB.Free b) ∧
      ∃ b, cacheOf384MB.measureMemoryBandwidth = some b ∧ ¬ cacheOf384MB.Free b := by
  constructor
  · refine ⟨bootParamsAt18MB.buffers 0x1000000 0x1800000, by decide +kernel, fun hfree => ?_⟩
    obtain ⟨seg, -, hsrc, -⟩ := hfree.free
    exact absurd (hsrc.bootData _ List.mem_cons_self) (by decide)
  · refine ⟨cacheOf384MB.buffers 0x7fe00000 0x48000000, by decide +kernel, fun hfree => ?_⟩
    obtain ⟨seg, -, hsrc, -⟩ := hfree.free
    exact absurd hsrc.pinned (by decide)

end Bench

end Memtest
