import Memtest.Tests.Rowhammer
import Memtest.Tests.Progress
import Memtest.Tests.ChunkSpec
import Memtest.Windows.FirstWord
import Memtest.Lib.Keeps
import Mathlib.Data.List.GetD

/-!
# Rowhammer stays inside its segment

Every address the test computes is the base of a site plus a number of strides, so it begins a cache
line: segments do, a site is rounded down to a line, and the strides are multiples of one. This is
what the wrap-around hangs on. In the last line of the address space no pointer to the first word of
a line can be moved on by a word and wrap, and the two bounds of the segment keep everything else
inside, even a row that has wrapped around.

Two rows are at least the shortest stride apart, going round either way, which is more than a victim
has bytes. So the aggressors leave the victims alone, and a memory without faults gives back what
the victims have been filled with.
-/

namespace Memtest

open Hoare

variable {arch : Arch}

/-! ### Cache lines -/

/-- The size of a cache line, to which `test_rowhammer` rounds a site down. -/
def lineBytes : ℕ := 64

/-- An address at which a cache line begins. -/
def AtLine (x : Testword arch) : Prop := lineBytes ∣ x.toNat

theorem lineBytes_dvd_two_pow (arch : Arch) : lineBytes ∣ 2 ^ arch.bits := by
  cases arch with
  | b32 => exact ⟨2 ^ 26, rfl⟩
  | b64 => exact ⟨2 ^ 58, rfl⟩

theorem wordBytes_dvd_lineBytes (arch : Arch) : arch.wordBytes ∣ lineBytes := by
  cases arch <;> decide

theorem wordBytes_lt_lineBytes (arch : Arch) : arch.wordBytes < lineBytes := by
  cases arch <;> decide

theorem AtLine.ofNat {n : ℕ} (h : lineBytes ∣ n) : AtLine (BitVec.ofNat arch.bits n) := by
  rw [AtLine, BitVec.toNat_ofNat]
  exact (Nat.dvd_mod_iff (lineBytes_dvd_two_pow arch)).mpr h

theorem AtLine.add {x y : Testword arch} (hx : AtLine x) (hy : AtLine y) : AtLine (x + y) := by
  rw [AtLine, BitVec.toNat_add]
  exact (Nat.dvd_mod_iff (lineBytes_dvd_two_pow arch)).mpr (Nat.dvd_add hx hy)

theorem AtLine.mul_left {y : Testword arch} (x : Testword arch) (hy : AtLine y) :
    AtLine (x * y) := by
  rw [AtLine, BitVec.toNat_mul]
  exact (Nat.dvd_mod_iff (lineBytes_dvd_two_pow arch)).mpr (Dvd.dvd.mul_left hy _)

/-- The whole line is in the address space. -/
theorem AtLine.room {x : Testword arch} (h : AtLine x) : x.toNat + lineBytes ≤ 2 ^ arch.bits := by
  have hlt := x.isLt
  have hle := Nat.le_of_dvd (Nat.sub_pos_of_lt hlt) (Nat.dvd_sub (lineBytes_dvd_two_pow arch) h)
  omega

theorem AtLine.word_dvd {x : Testword arch} (h : AtLine x) : arch.wordBytes ∣ x.toNat :=
  (wordBytes_dvd_lineBytes arch).trans h

theorem atLine_roundDown (x : Testword arch) :
    AtLine (BitVec.ofNat arch.bits (roundDown arch x.toNat 64)) := by
  have hline : lineBytes = 2 ^ 6 := rfl
  have hround : roundDown arch x.toNat (2 ^ 6) = x.toNat / 2 ^ 6 * 2 ^ 6 :=
    roundDown_eq x.isLt (by cases arch <;> decide)
  refine AtLine.ofNat ?_
  rw [hline, show 64 = 2 ^ 6 from rfl, hround]
  exact Nat.dvd_mul_left _ _

theorem AtLine.roundUp_eq {x : Testword arch} (h : AtLine x) :
    roundUp arch x.toNat arch.wordBytes = x.toNat := by
  have hroom := h.room
  obtain ⟨k, hk⟩ := h.word_dvd
  have hline : lineBytes = 64 := rfl
  cases arch with
  | b32 =>
    have hpow : Arch.b32.wordBytes = 2 ^ 2 := rfl
    rw [hpow] at hk ⊢
    rw [roundUp, Nat.mod_eq_of_lt (by omega), roundDown_eq (by omega) (by decide)]
    omega
  | b64 =>
    have hpow : Arch.b64.wordBytes = 2 ^ 3 := rfl
    rw [hpow] at hk ⊢
    rw [roundUp, Nat.mod_eq_of_lt (by omega), roundDown_eq (by omega) (by decide)]
    omega

/-- A word further on, still in the address space. -/
theorem toNat_add_word {x : Testword arch} (h : x.toNat + arch.wordBytes < 2 ^ arch.bits) :
    (x + BitVec.ofNat arch.bits arch.wordBytes).toNat = x.toNat + arch.wordBytes := by
  have hword : arch.wordBytes < 2 ^ arch.bits := by omega
  rw [BitVec.toNat_add, BitVec.toNat_ofNat, Nat.mod_eq_of_lt hword, Nat.mod_eq_of_lt h]

/-! ### The words of a region -/

/-- The loop of `rh_fill_region` and `rh_check` from the pointer `p` on, in the arithmetic of the
pointers: those it dereferences, or `none` where it has not come to its end. -/
def regionLoop (e : Testword arch) : (fuel : ℕ) → Testword arch → Option (List (Testword arch))
  | 0, _ => none
  | fuel + 1, p =>
      if p + BitVec.ofNat arch.bits arch.wordBytes ≤ e then
        (regionLoop e fuel (p + BitVec.ofNat arch.bits arch.wordBytes)).map (p :: ·)
      else some []

/-- The pointers that `rh_fill_region` and `rh_check` dereference in a region. -/
def rhPointers (addr : Testword arch) (bytes : ℕ) (segStart segEnd : Testword arch) (fuel : ℕ) :
    Option (List (Testword arch)) :=
  let a := BitVec.ofNat arch.bits (roundUp arch addr.toNat arch.wordBytes)
  let e := addr + BitVec.ofNat arch.bits bytes
  let a := if a < segStart then .ofNat arch.bits (roundUp arch segStart.toNat arch.wordBytes) else a
  let e := if e > segEnd then segEnd else e
  regionLoop e fuel a

/-- Below the last word of the address space the loop has as many steps as there is room for. -/
theorem regionLoop_eq {e : Testword arch} (he : e.toNat + arch.wordBytes < 2 ^ arch.bits) {n : ℕ}
    {p : Testword arch} (hp : p.toNat + arch.wordBytes < 2 ^ arch.bits)
    (hdvd : arch.wordBytes ∣ p.toNat) (hn : (e.toNat - p.toNat) / arch.wordBytes = n) :
    regionLoop e (n + 1) p = some ((List.range' (p.toNat / arch.wordBytes) n).map fun q =>
      BitVec.ofNat arch.bits (q * arch.wordBytes)) := by
  have hpos := arch.wordBytes_pos
  have hnext := toNat_add_word hp
  induction n generalizing p with
  | zero =>
    have hlt : e.toNat - p.toNat < arch.wordBytes := by
      rwa [Nat.div_eq_zero_iff, or_iff_right hpos.ne'] at hn
    rw [regionLoop, if_neg (by rw [BitVec.le_def, hnext]; omega)]
    rfl
  | succ n ih =>
    have hle : arch.wordBytes ≤ e.toNat - p.toNat := by
      by_contra hlt
      rw [Nat.div_eq_of_lt (Nat.lt_of_not_le hlt)] at hn
      exact absurd hn (by omega)
    have hroom : (p + BitVec.ofNat arch.bits arch.wordBytes).toNat + arch.wordBytes <
        2 ^ arch.bits := by rw [hnext]; omega
    -- the first word is dealt with, and the others are those of the loop from the next one on
    have hrest : (e.toNat - (p + BitVec.ofNat arch.bits arch.wordBytes).toNat) / arch.wordBytes =
        n := by
      rw [Nat.div_eq_sub_div hpos hle] at hn
      rw [hnext, ← Nat.sub_sub]
      omega
    have hword : BitVec.ofNat arch.bits (p.toNat / arch.wordBytes * arch.wordBytes) = p := by
      rw [Nat.div_mul_cancel hdvd, BitVec.ofNat_toNat, BitVec.setWidth_eq]
    rw [regionLoop, if_pos (by rw [BitVec.le_def, hnext]; omega),
      ih hroom (by rw [hnext]; exact Nat.dvd_add hdvd (Nat.dvd_refl _)) hrest
        (toNat_add_word hroom), hnext, Nat.add_div_right _ hpos, Option.map_some,
      List.range'_succ, List.map_cons, hword]

section

variable {addr segStart segEnd : Testword arch} {bytes : ℕ}

/-- Where the words of a region begin. -/
def regionStart (addr segStart : Testword arch) : ℕ := max addr.toNat segStart.toNat

/-- Where they end. -/
def regionStop (addr : Testword arch) (bytes : ℕ) (segEnd : Testword arch) : ℕ :=
  min (addr + BitVec.ofNat arch.bits bytes).toNat segEnd.toNat

theorem toNat_clampStart (addr segStart : Testword arch) :
    (if addr < segStart then segStart else addr).toNat = regionStart addr segStart := by
  rw [regionStart]
  split
  · next h => exact (max_eq_right (BitVec.lt_def.mp h).le).symm
  · next h => exact (max_eq_left (Nat.le_of_not_lt h)).symm

theorem toNat_clampEnd (addr : Testword arch) (bytes : ℕ) (segEnd : Testword arch) :
    (if addr + BitVec.ofNat arch.bits bytes > segEnd then segEnd
      else addr + BitVec.ofNat arch.bits bytes).toNat = regionStop addr bytes segEnd := by
  rw [regionStop]
  split
  · next h => exact (min_eq_right (BitVec.lt_def.mp h).le).symm
  · next h => exact (min_eq_left (Nat.le_of_not_lt h)).symm

theorem rhRegion_eq (haddr : AtLine addr) (hstart : AtLine segStart) :
    rhRegion addr bytes segStart segEnd =
      List.range' (regionStart addr segStart / arch.wordBytes)
        ((regionStop addr bytes segEnd - regionStart addr segStart) / arch.wordBytes) := by
  have ha : (if BitVec.ofNat arch.bits (roundUp arch addr.toNat arch.wordBytes) < segStart then
      roundUp arch segStart.toNat arch.wordBytes else roundUp arch addr.toNat arch.wordBytes) =
      regionStart addr segStart := by
    rw [haddr.roundUp_eq, hstart.roundUp_eq, BitVec.ofNat_toNat, BitVec.setWidth_eq,
      ← toNat_clampStart, apply_ite BitVec.toNat]
  rw [rhRegion, ha, toNat_clampEnd]

theorem dvd_regionStart (haddr : AtLine addr) (hstart : AtLine segStart) :
    arch.wordBytes ∣ regionStart addr segStart := by
  rw [regionStart]
  obtain h | h := max_choice addr.toNat segStart.toNat
  · rw [h]
    exact haddr.word_dvd
  · rw [h]
    exact hstart.word_dvd

/-- **The words of a region.** They lie between the bounds of the segment, and in the region before
it wraps around. -/
theorem mem_rhRegion (haddr : AtLine addr) (hstart : AtLine segStart) {p : ℕ}
    (hp : p ∈ rhRegion addr bytes segStart segEnd) :
    segStart.toNat ≤ p * arch.wordBytes ∧ p * arch.wordBytes + arch.wordBytes ≤ segEnd.toNat ∧
      addr.toNat ≤ p * arch.wordBytes ∧
        p * arch.wordBytes + arch.wordBytes ≤ addr.toNat + bytes := by
  rw [rhRegion_eq haddr hstart, List.mem_range'_1] at hp
  obtain ⟨hlo, hhi⟩ := hp
  have hpos := arch.wordBytes_pos
  have hfirst : regionStart addr segStart ≤ p * arch.wordBytes := by
    calc regionStart addr segStart
        = regionStart addr segStart / arch.wordBytes * arch.wordBytes :=
          (Nat.div_mul_cancel (dvd_regionStart haddr hstart)).symm
      _ ≤ p * arch.wordBytes := Nat.mul_le_mul_right _ hlo
  have hlast : p * arch.wordBytes + arch.wordBytes ≤ regionStop addr bytes segEnd := by
    -- there is a word, so the region does not end before it begins
    have hroom := Nat.div_mul_le_self
      (regionStop addr bytes segEnd - regionStart addr segStart) arch.wordBytes
    have hsome : 0 < (regionStop addr bytes segEnd - regionStart addr segStart) / arch.wordBytes :=
      by omega
    have hlt : regionStart addr segStart < regionStop addr bytes segEnd := by
      by_contra hge
      rw [Nat.sub_eq_zero_of_le (Nat.le_of_not_lt hge), Nat.zero_div] at hsome
      exact absurd hsome (lt_irrefl 0)
    calc p * arch.wordBytes + arch.wordBytes
        = (p + 1) * arch.wordBytes := (Nat.succ_mul _ _).symm
      _ ≤ (regionStart addr segStart / arch.wordBytes +
          (regionStop addr bytes segEnd - regionStart addr segStart) / arch.wordBytes) *
            arch.wordBytes := Nat.mul_le_mul_right _ hhi
      _ = regionStart addr segStart +
          (regionStop addr bytes segEnd - regionStart addr segStart) / arch.wordBytes *
            arch.wordBytes := by
        rw [Nat.add_mul, Nat.div_mul_cancel (dvd_regionStart haddr hstart)]
      _ ≤ regionStop addr bytes segEnd := by omega
  have hend : regionStop addr bytes segEnd ≤ addr.toNat + bytes := by
    refine (min_le_left _ _).trans ?_
    rw [BitVec.toNat_add, BitVec.toNat_ofNat]
    exact (Nat.mod_le _ _).trans (Nat.add_le_add_left (Nat.mod_le _ _) _)
  exact ⟨(le_max_right _ _).trans hfirst, hlast.trans (min_le_right _ _),
    (le_max_left _ _).trans hfirst, hlast.trans hend⟩

/-- The loop ends, and it comes to just these words. -/
theorem exists_rhPointers (haddr : AtLine addr) (hstart : AtLine segStart) (hend : AtLine segEnd)
    (hbytes : lineBytes ∣ bytes) :
    ∃ fuel, rhPointers addr bytes segStart segEnd fuel =
      some ((rhRegion addr bytes segStart segEnd).map fun p =>
        BitVec.ofNat arch.bits (p * arch.wordBytes)) := by
  have hword := wordBytes_lt_lineBytes arch
  have hroom : ∀ x : Testword arch, AtLine x → x.toNat + arch.wordBytes < 2 ^ arch.bits :=
    fun x hx => (Nat.add_lt_add_left hword _).trans_le hx.room
  rw [rhRegion_eq haddr hstart]
  refine ⟨(regionStop addr bytes segEnd - regionStart addr segStart) / arch.wordBytes + 1, ?_⟩
  rw [rhPointers, haddr.roundUp_eq, hstart.roundUp_eq]
  simp only [BitVec.ofNat_toNat, BitVec.setWidth_eq]
  have hp : AtLine (if addr < segStart then segStart else addr) := by
    split
    · exact hstart
    · exact haddr
  have he : AtLine (if addr + BitVec.ofNat arch.bits bytes > segEnd then segEnd
      else addr + BitVec.ofNat arch.bits bytes) := by
    split
    · exact hend
    · exact haddr.add (.ofNat hbytes)
  rw [regionLoop_eq (hroom _ he) (hroom _ hp) hp.word_dvd
    (by rw [toNat_clampEnd, toNat_clampStart]), toNat_clampStart]

end

/-! ### Segments and sites -/

/-- A `vm_map` whose segments begin and end where cache lines do. This is more than whole words,
and it is what the pages of `setup_vm_map` and the start that `run_test` moves to (`0x500`) come
to. -/
structure LineAligned (arch : Arch) (vmMap : List VmSegment) : Prop where
  start_dvd : ∀ seg ∈ vmMap, lineBytes ∣ seg.start
  stop_dvd : ∀ seg ∈ vmMap, lineBytes ∣ seg.stop + arch.wordBytes
  start_lt : ∀ seg ∈ vmMap, seg.start < 2 ^ arch.bits

theorem lineBytes_dvd_firstWordMapping (page : ℕ) : lineBytes ∣ firstWordMapping page := by
  obtain ⟨q, hq⟩ := exists_firstWordMapping page
  rw [hq]
  exact Dvd.dvd.mul_left (by decide) q

theorem lineBytes_dvd_firstWord (limits : PageLimits) : lineBytes ∣ firstWord limits := by
  rw [firstWord]
  split
  · decide
  · exact lineBytes_dvd_firstWordMapping limits.lower

section

variable {numa : NumaConfig} {limits : PageLimits} {pmMap : List PmSegment} {k : ℕ}

/-- Whatever the tables of the firmware say, an entry is made for pages. -/
theorem exists_vmSegment_of_mem {seg : VmSegment}
    (hseg : seg ∈ (windowVm numa limits pmMap k).vmMap) :
    ∃ idx lo hi, seg = vmSegment idx lo hi := by
  rw [windowVm] at hseg
  cases hnuma : numa.enableNuma with
  | false =>
    rw [setupVmMap_nonNuma hnuma] at hseg
    obtain ⟨part, -, rfl⟩ := List.mem_map.mp hseg
    exact ⟨0, part.1, part.2, rfl⟩
  | true =>
    have hvm := setupVmMap_numa hnuma limits pmMap (winBound k) (winBound (k + 1))
    dsimp only at hvm
    rw [hvm] at hseg
    obtain ⟨pt, -, rfl⟩ := List.mem_map.mp hseg
    rw [SplitPoint.entry]
    split
    · exact ⟨_, _, _, rfl⟩
    · exact ⟨_, _, _, rfl⟩

/-- **The segments of every window are aligned to cache lines.** `setup_vm_map` makes them of pages,
and `run_test` moves a start to a page or to `0x500`. -/
theorem lineAligned_testsVmMap : LineAligned arch (testsVmMap arch numa limits pmMap k) := by
  have hspec : ∀ seg ∈ testsVmMap arch numa limits pmMap k, ∃ lo last,
      seg.stop + arch.wordBytes = firstWordMapping last + pageSize ∧
        (seg.start = firstWordMapping lo ∨ seg.start = firstWord limits) := by
    intro seg hseg
    obtain ⟨seg', hseg', rfl⟩ := List.mem_map.mp hseg
    obtain ⟨entry, hentry, hstop, hstart⟩ := exists_mem_of_mem_moveFirstWord hseg'
    obtain ⟨idx, lo, hi, rfl⟩ := exists_vmSegment_of_mem hentry
    refine ⟨lo, prevPage hi, ?_, hstart⟩
    have hlast : seg'.lastWord arch = (vmSegment idx lo hi).lastWord arch := by
      rw [VmSegment.lastWord, VmSegment.lastWord, hstop]
    have hword : arch.wordBytes ≤ pageSize := by cases arch <;> decide
    dsimp only
    rw [hlast, lastWord_vmSegment, lastWordMapping]
    omega
  constructor
  · intro seg hseg
    obtain ⟨lo, last, -, hstart⟩ := hspec seg hseg
    obtain hstart | hstart := hstart
    · exact hstart ▸ lineBytes_dvd_firstWordMapping lo
    · exact hstart ▸ lineBytes_dvd_firstWord limits
  · intro seg hseg
    obtain ⟨lo, last, hstop, -⟩ := hspec seg hseg
    rw [hstop]
    exact Nat.dvd_add (lineBytes_dvd_firstWordMapping last) (by decide)
  · intro seg hseg
    obtain ⟨lo, last, -, hstart⟩ := hspec seg hseg
    obtain hstart | hstart := hstart
    · have hlt := firstWordMapping_lt lo
      have hbits : 3221225472 < 2 ^ arch.bits := by cases arch <;> decide
      omega
    · exact hstart ▸ firstWord_lt arch limits

end

/-- The bounds of a site are those of a segment. -/
structure SiteOf (seg : VmSegment) (site : HammerSite arch) : Prop where
  segStart : site.segStart = BitVec.ofNat arch.bits seg.start
  segEnd : site.segEnd = segmentEnd arch seg

theorem findSite_spec {target acc : Testword arch} {vmMap : List VmSegment}
    {site : HammerSite arch} (h : findSite arch target acc vmMap = some site) :
    ∃ seg ∈ vmMap, SiteOf seg site := by
  induction vmMap generalizing acc with
  | nil => exact absurd h (by rw [findSite]; exact nofun)
  | cons seg vmMap ih =>
    rw [findSite] at h
    split at h
    · obtain rfl := Option.some.inj h
      exact ⟨seg, List.mem_cons_self, rfl, rfl⟩
    · obtain ⟨seg', hseg', hsite⟩ := ih h
      exact ⟨seg', List.mem_cons_of_mem _ hseg', hsite⟩

/-- The segment selected for a site. -/
theorem exists_siteOf {seg : VmSegment} {vmMap : List VmSegment} (hseg : seg ∈ vmMap) (i : ℕ) :
    ∃ seg' ∈ vmMap, SiteOf seg' (hammerSite arch seg vmMap i) := by
  rw [hammerSite]
  generalize totalBytes arch vmMap / BitVec.ofNat arch.bits rhSites *
    BitVec.ofNat arch.bits i + totalBytes arch vmMap / BitVec.ofNat arch.bits rhSites / 2 = target
  cases hfind : findSite arch target 0 vmMap with
  | none =>
    -- the code stays with the segment it began with
    exact ⟨seg, hseg, rfl, rfl⟩
  | some site =>
    obtain ⟨seg', hseg', hsite⟩ := findSite_spec hfind
    exact ⟨seg', hseg', hsite.segStart, hsite.segEnd⟩

/-- A site is rounded down to a line, or it is where its segment begins. -/
theorem atLine_hammerSite {seg : VmSegment} {vmMap : List VmSegment}
    (hvm : LineAligned arch vmMap) (hseg : seg ∈ vmMap) (i : ℕ) :
    AtLine (hammerSite arch seg vmMap i).addr := by
  obtain ⟨seg', hseg', hsite⟩ : ∃ seg' ∈ vmMap, SiteOf seg' (hammerSite arch seg vmMap i) :=
    exists_siteOf hseg i
  have hstart : AtLine (hammerSite arch seg vmMap i).segStart :=
    hsite.segStart ▸ AtLine.ofNat (hvm.start_dvd seg' hseg')
  rw [hammerSite] at hstart ⊢
  dsimp only at hstart ⊢
  split
  · exact hstart
  · exact atLine_roundDown _

/-! ### Strides and patterns -/

/-- The candidates `cand` of `rh_discover_stride`. -/
def rhCandidateStrides : List ℕ :=
  [32 <<< 10, 64 <<< 10, 128 <<< 10, 256 <<< 10, 512 <<< 10, 1 <<< 20]

/-- A stride the test can choose: one that has been discovered, or a blind guess. Which one is
discovered depends on times that are measured, so all of them are possible. -/
def IsStride (stride : Testword arch) : Prop :=
  ∃ bytes ∈ rhBlindStrides ++ rhCandidateStrides, stride = BitVec.ofNat arch.bits bytes

/-- A pattern the test can choose for a period: one of the table, or one the fuzzer makes from a
state of its generator. -/
def IsPattern (arch : Arch) (period : ℕ) (pattern : List Aggressor) : Prop :=
  pattern ∈ rhStaticPatterns ∨
    ∃ fuzzState : Testword arch, pattern = (rhFuzzPattern fuzzState period).1

/-- A stride is a number of shortest strides, up to a megabyte. -/
theorem IsStride.exists_mul {stride : Testword arch} (h : IsStride stride) :
    ∃ n, stride.toNat = 32768 * n ∧ 0 < n ∧ n ≤ 32 := by
  obtain ⟨bytes, hbytes, rfl⟩ := h
  have hall : ∀ b ∈ rhBlindStrides ++ rhCandidateStrides, b < 2 ^ 32 ∧ b = 32768 * (b / 32768) ∧
      0 < b / 32768 ∧ b / 32768 ≤ 32 := by decide
  have hbits : 2 ^ 32 ≤ 2 ^ arch.bits := by cases arch <;> decide
  obtain ⟨hlt, heq, hpos, hle⟩ := hall bytes hbytes
  refine ⟨bytes / 32768, ?_, hpos, hle⟩
  rw [BitVec.toNat_ofNat, Nat.mod_eq_of_lt (hlt.trans_le hbits)]
  exact heq

theorem IsStride.atLine {stride : Testword arch} (h : IsStride stride) : AtLine stride := by
  obtain ⟨n, hn, -⟩ := h.exists_mul
  rw [AtLine, hn]
  exact Dvd.dvd.mul_right (by decide) n

theorem offset_lt_of_mem_fuzzAggressors {period n off : ℕ} {fuzzState : Testword arch}
    {a : Aggressor} (ha : a ∈ (fuzzAggressors period n off fuzzState).1) : a.offset < 256 := by
  induction n generalizing off fuzzState with
  | zero => exact absurd ha List.not_mem_nil
  | succ n ih =>
    rw [fuzzAggressors] at ha
    obtain rfl | hrest := List.mem_cons.mp ha
    · exact Nat.mod_lt _ (by decide)
    · exact ih hrest

/-- A row offset is a byte. -/
theorem IsPattern.offset_lt {period : ℕ} {pattern : List Aggressor}
    (h : IsPattern arch period pattern) : ∀ a ∈ pattern, a.offset < 256 := by
  obtain h | ⟨fuzzState, rfl⟩ := h
  · have hall : ∀ pattern ∈ rhStaticPatterns, ∀ a ∈ pattern, a.offset < 256 := by decide
    exact hall pattern h
  · exact fun a ha => offset_lt_of_mem_fuzzAggressors ha

/-- A list without its later duplicates. -/
theorem mem_foldl_insert {l acc : List ℕ} {off : ℕ}
    (h : off ∈ l.foldl (fun victims off => if off ∈ victims then victims else victims ++ [off])
      acc) : off ∈ acc ∨ off ∈ l := by
  induction l generalizing acc with
  | nil => exact .inl h
  | cons x l ih =>
    rw [List.foldl_cons] at h
    obtain hacc | hl := ih h
    · split at hacc
      · exact .inl hacc
      · obtain hacc | hx := List.mem_append.mp hacc
        · exact .inl hacc
        · exact .inr (List.mem_cons.mpr (.inl (List.mem_singleton.mp hx)))
    · exact .inr (List.mem_cons_of_mem x hl)

/-- A victim is a row that is no aggressor. -/
theorem mem_rhVictims {pattern : List Aggressor} {off : ℕ} (hrows : ∀ a ∈ pattern, a.offset < 256)
    (h : off ∈ rhVictims pattern) : off < 256 ∧ ∀ a ∈ pattern, off ≠ a.offset := by
  obtain hnil | hmem := mem_foldl_insert h
  · exact absurd hnil List.not_mem_nil
  obtain ⟨hrow, hfree⟩ := List.mem_filter.mp hmem
  refine ⟨?_, fun a ha heq => of_decide_eq_true hfree (heq ▸ List.mem_map_of_mem ha)⟩
  obtain ⟨a, ha, hnext⟩ := List.mem_flatMap.mp hrow
  have hlt := hrows a ha
  -- the row below an aggressor, or the one above
  obtain hbelow | habove := List.mem_append.mp hnext
  · split at hbelow
    · exact absurd hbelow List.not_mem_nil
    · have := List.mem_singleton.mp hbelow
      omega
  · split at habove
    · exact absurd habove List.not_mem_nil
    · have := List.mem_singleton.mp habove
      omega

/-- There is room in `vic_off` for all victims, so the code never leaves one out for want of it. -/
theorem length_rhVictims_le (pattern : List Aggressor) :
    (rhVictims pattern).length ≤ 2 * pattern.length := by
  have hfold : ∀ l acc : List ℕ,
      (l.foldl (fun victims off => if off ∈ victims then victims else victims ++ [off])
        acc).length ≤ acc.length + l.length := by
    intro l
    induction l with
    | nil => exact fun acc => Nat.le_refl _
    | cons x l ih =>
      intro acc
      rw [List.foldl_cons, List.length_cons]
      refine (ih _).trans ?_
      split
      · omega
      · rw [List.length_append, List.length_singleton]
        omega
  have hrows : ∀ l : List Aggressor, (l.flatMap fun a =>
      (if a.offset = 0 then [] else [a.offset - 1]) ++
        if a.offset = 255 then [] else [a.offset + 1]).length ≤ 2 * l.length := by
    intro l
    induction l with
    | nil => exact Nat.le_refl _
    | cons a l ih =>
      rw [List.flatMap_cons, List.length_append, List.length_append, List.length_cons]
      have hbelow : (if a.offset = 0 then [] else [a.offset - 1]).length ≤ 1 := by
        split <;> simp
      have habove : (if a.offset = 255 then [] else [a.offset + 1]).length ≤ 1 := by
        split <;> simp
      omega
  refine (hfold _ []).trans ?_
  rw [List.length_nil, Nat.zero_add]
  exact (List.length_filter_le _ _).trans (hrows pattern)

theorem length_rhMaterialize_le (pattern : List Aggressor)
    (base stride segStart segEnd : Testword arch) (period : ℕ) :
    (rhMaterialize pattern base stride segStart segEnd period).length ≤ min period rhMaxPeriod := by
  rw [rhMaterialize]
  exact (List.length_filterMap_le _ _).trans_eq List.length_range

section

variable {base stride segStart segEnd : Testword arch} {pattern : List Aggressor}

theorem AtLine.row (hbase : AtLine base) (hstride : AtLine stride) (off : ℕ) :
    AtLine (rowAddr base stride off) :=
  hbase.add (hstride.mul_left _)

/-- An entry of the sequence passes both comparisons with the bounds of the segment, and the one
with its end does not wrap. -/
theorem mem_rhMaterialize (hbase : AtLine base) (hstride : AtLine stride) {period : ℕ}
    {addr : Testword arch} (h : addr ∈ rhMaterialize pattern base stride segStart segEnd period) :
    segStart.toNat ≤ addr.toNat ∧ addr.toNat + arch.wordBytes ≤ segEnd.toNat := by
  rw [rhMaterialize] at h
  obtain ⟨slot, -, hslot⟩ := List.mem_filterMap.mp h
  obtain ⟨a, -, hentry⟩ := Option.bind_eq_some_iff.mp hslot
  have hroom := (hbase.row hstride a.offset).room
  have hword := wordBytes_lt_lineBytes arch
  dsimp only at hentry
  split_ifs at hentry with hlow hhigh
  obtain rfl := Option.some.inj hentry
  have hend : (rowAddr base stride a.offset +
      BitVec.ofNat arch.bits arch.wordBytes).toNat ≤ segEnd.toNat := Nat.le_of_not_lt hhigh
  rw [toNat_add_word (by omega)] at hend
  exact ⟨Nat.le_of_not_lt hlow, hend⟩

theorem toNat_rowAddr {off : ℕ} (hoff : off < 256) :
    (rowAddr base stride off).toNat = (base.toNat + off * stride.toNat) % 2 ^ arch.bits := by
  have hbits : 2 ^ 8 ≤ 2 ^ arch.bits := by cases arch <;> decide
  have hlt : off < 2 ^ arch.bits := by omega
  rw [rowAddr, BitVec.toNat_add, BitVec.toNat_mul, BitVec.toNat_ofNat, Nat.mod_eq_of_lt hlt,
    Nat.add_mod_mod]

/-- **Two rows are apart.** A word of a region of a row is not one of a region of another row. -/
theorem rows_apart (hbase : AtLine base) (hstride : IsStride stride) (hstart : AtLine segStart)
    {off off' : ℕ} (hoff : off < 256) (hoff' : off' < 256) (hne : off ≠ off') {p : ℕ}
    (hp : p ∈ rhRegion (rowAddr base stride off) rhVictimBytes segStart segEnd) :
    p ∉ rhRegion (rowAddr base stride off') rhAggrBytes segStart segEnd := by
  intro hp'
  have hpos := arch.wordBytes_pos
  obtain ⟨-, -, hlo, hhi⟩ := mem_rhRegion (hbase.row hstride.atLine off) hstart hp
  obtain ⟨-, -, hlo', hhi'⟩ := mem_rhRegion (hbase.row hstride.atLine off') hstart hp'
  obtain ⟨n, hn, hnpos, hnle⟩ := hstride.exists_mul
  rw [toNat_rowAddr hoff, hn] at hlo hhi
  rw [toNat_rowAddr hoff', hn] at hlo' hhi'
  -- the distance is a number of shortest strides, which is neither zero nor the whole way round
  have hdist : off * n ≠ off' * n := fun heq => hne (Nat.eq_of_mul_eq_mul_right hnpos heq)
  have hmul : off * n ≤ 255 * 32 := Nat.mul_le_mul (by omega) hnle
  have hmul' : off' * n ≤ 255 * 32 := Nat.mul_le_mul (by omega) hnle
  rw [Nat.mul_left_comm] at hlo hhi hlo' hhi'
  rw [rhVictimBytes] at hhi
  rw [rhAggrBytes] at hhi'
  generalize off * n = x at *
  generalize off' * n = y at *
  generalize p * arch.wordBytes = q at *
  -- `omega` needs the width of an address
  cases arch with
  | b32 =>
    simp only [Arch.bits] at hlo hhi hlo' hhi'
    omega
  | b64 =>
    simp only [Arch.bits] at hlo hhi hlo' hhi'
    omega

end

/-! ### Filling and checking -/

/-- The words that an event writes or reads. -/
def Event.Touches : Event arch → ℕ → Prop
  | .write q _, p => q = p
  | .check q _, p => q = p
  | _, _ => False

/-- An event that touches no word outside, and on a memory without faults is no report. -/
structure Event.Harmless (env : TestEnv arch) (inside : ℕ → Prop) (e : Event arch) : Prop where
  inside : ∀ p, e.Touches p → inside p
  noDataError : (∀ p v, env.readBack p v = v) →
    ∀ p good bad useForBadram, e ≠ .dataError p good bad useForBadram

/-- On the way from one state to another nothing has been added to the log but what is allowed. -/
def Appends (allowed : Event arch → Prop) (s t : TestState arch) : Prop :=
  ∃ events, t.log = s.log ++ events ∧ ∀ e ∈ events, allowed e

section

variable {allowed : Event arch → Prop} {s t u : TestState arch} {e : Event arch}

theorem Appends.refl (s : TestState arch) : Appends allowed s s :=
  ⟨[], (List.append_nil _).symm, fun _ he => absurd he List.not_mem_nil⟩

theorem Appends.of_log (h : Appends allowed s t) (hlog : u.log = t.log) : Appends allowed s u := by
  rwa [Appends, hlog]

theorem Appends.event (h : Appends allowed s t) (hlog : u.log = t.log ++ [e]) (he : allowed e) :
    Appends allowed s u := by
  obtain ⟨events, ht, hall⟩ := h
  refine ⟨events ++ [e], by rw [hlog, ht, List.append_assoc], fun e' he' => ?_⟩
  obtain he' | he' := List.mem_append.mp he'
  · exact hall e' he'
  · exact List.mem_singleton.mp he' ▸ he

end

/-- `rh_fill` and then `rh_check`, as `test_rowhammer` calls them. -/
def rhFillCheck (env : TestEnv arch) (site : HammerSite arch) (stride : Testword arch)
    (pattern : List Aggressor) (vword : Testword arch) : TestM arch Unit := do
  rhFill site.addr stride pattern vword site.segStart site.segEnd
  rhCheck env site.addr stride pattern vword site.segStart site.segEnd

section

variable {env : TestEnv arch} {P : TestState arch → Prop} {R : Exit → TestState arch → Prop}
  {base stride segStart segEnd vword : Testword arch} {pattern : List Aggressor}

/-- A fill leaves its word in the whole region. -/
theorem rhFillRegion_triple {addr word : Testword arch} {bytes : ℕ}
    (hkeep : ∀ p ∈ rhRegion addr bytes segStart segEnd, ∀ s, P s → P (s.set p word)) :
    Triple P (rhFillRegion addr word bytes segStart segEnd)
      (fun _ s => P s ∧ ∀ p ∈ rhRegion addr bytes segStart segEnd, s.store p = word) R := by
  refine Triple.pre (Triple.foldlM (I := fun before _ s => P s ∧ ∀ p ∈ before, s.store p = word)
    (fun before x after hl _ => Triple.modify fun s hs => ⟨?_, fun p hp => ?_⟩) ())
    fun s hs => ⟨hs, fun p hp => absurd hp List.not_mem_nil⟩
  · exact hkeep x (by rw [hl]; exact List.mem_append_right _ List.mem_cons_self) s hs.1
  · rw [store_set, Function.update_apply]
    split
    · rfl
    · next hne =>
      obtain hp | hp := List.mem_append.mp hp
      · exact hs.2 p hp
      · exact absurd (List.mem_singleton.mp hp) hne

/-- **After a fill** the victims hold their word: the aggressors have been filled before them. -/
theorem rhFill_triple
    (haggr : ∀ a ∈ pattern, ∀ p ∈ rhRegion (rowAddr base stride a.offset) rhAggrBytes segStart
      segEnd, ∀ s, P s → P (s.set p (~~~vword)))
    (hvictim : ∀ off ∈ rhVictims pattern, ∀ p ∈ rhRegion (rowAddr base stride off) rhVictimBytes
      segStart segEnd, ∀ s, P s → P (s.set p vword)) :
    Triple P (rhFill base stride pattern vword segStart segEnd)
      (fun _ s => P s ∧ ∀ off ∈ rhVictims pattern,
        ∀ p ∈ rhRegion (rowAddr base stride off) rhVictimBytes segStart segEnd,
          s.store p = vword) R := by
  refine Triple.bind (Triple.foldlM_keep fun a ha =>
    (rhFillRegion_triple (haggr a ha)).post fun _ s hs => hs.1) fun _ => ?_
  refine Triple.pre (Triple.foldlM (I := fun before _ s => P s ∧ ∀ off ∈ before,
    ∀ p ∈ rhRegion (rowAddr base stride off) rhVictimBytes segStart segEnd, s.store p = vword)
    (fun before off after hl _ => ?_) ()) fun s hs => ⟨hs, fun off h => absurd h List.not_mem_nil⟩
  have hoff : off ∈ rhVictims pattern := by
    rw [hl]
    exact List.mem_append_right _ List.mem_cons_self
  have hkeep : ∀ p ∈ rhRegion (rowAddr base stride off) rhVictimBytes segStart segEnd, ∀ s,
      (P s ∧ ∀ o ∈ before, ∀ q ∈ rhRegion (rowAddr base stride o) rhVictimBytes segStart segEnd,
        s.store q = vword) →
      P (s.set p vword) ∧ ∀ o ∈ before,
        ∀ q ∈ rhRegion (rowAddr base stride o) rhVictimBytes segStart segEnd,
          (s.set p vword).store q = vword := by
    refine fun p hp s hs => ⟨hvictim off hoff p hp s hs.1, fun o ho q hq => ?_⟩
    -- a word of two rows gets the same value again
    rw [store_set, Function.update_apply]
    split
    · rfl
    · exact hs.2 o ho q hq
  refine (rhFillRegion_triple hkeep).post fun _ s hs => ⟨hs.1.1, fun o ho => ?_⟩
  obtain ho | ho := List.mem_append.mp ho
  · exact hs.1.2 o ho
  · exact List.mem_singleton.mp ho ▸ hs.2

theorem rhCheck_triple
    (h : ∀ off ∈ rhVictims pattern, ∀ p ∈ rhRegion (rowAddr base stride off) rhVictimBytes
      segStart segEnd, ∀ s, P s → P (s.checked env p vword false)) :
    Triple P (rhCheck env base stride pattern vword segStart segEnd) (fun _ => P) R :=
  Triple.foldlM_keep fun off hoff => Triple.foldlM_keep fun p hp =>
    checkWord_triple (h off hoff p hp)

/-- A check of a word that holds what is expected is harmless. -/
theorem Appends.checked {inside : ℕ → Prop} {s t : TestState arch} {p : ℕ}
    (h : Appends (Event.Harmless env inside) s t) (hp : inside p) (hstore : t.store p = vword) :
    Appends (Event.Harmless env inside) s (t.checked env p vword false) := by
  have hcheck : Appends (Event.Harmless env inside) s (t.record (.check p vword)) :=
    h.event rfl ⟨fun q hq => hq ▸ hp, fun _ _ _ _ _ => nofun⟩
  rw [TestState.checked]
  split
  · next hne =>
    -- it is reported, so the memory has a fault
    refine hcheck.event rfl ⟨fun q hq => hq.elim, fun hmem => ?_⟩
    exact absurd ((hmem p _).trans hstore) hne
  · exact hcheck

/-- **A fill and a check** touch no word outside, and report nothing where there is no fault. -/
theorem rhFillCheck_triple {site : HammerSite arch} {inside : ℕ → Prop}
    (hrows : ∀ a ∈ pattern, a.offset < 256)
    (hinside : ∀ off < 256, ∀ bytes,
      ∀ p ∈ rhRegion (rowAddr site.addr stride off) bytes site.segStart site.segEnd, inside p)
    (s : TestState arch) :
    Triple (Appends (Event.Harmless env inside) s) (rhFillCheck env site stride pattern vword)
      (fun _ => Appends (Event.Harmless env inside) s) R := by
  have hwrite : ∀ p word t, inside p → Appends (Event.Harmless env inside) s t →
      Appends (Event.Harmless env inside) s (t.set p word) := fun p word t hp ht =>
    ht.event rfl ⟨fun q hq => hq ▸ hp, fun _ _ _ _ _ => nofun⟩
  -- a victim has a row offset of one byte, as the aggressors have
  have hvictim : ∀ off ∈ rhVictims pattern, ∀ p ∈ rhRegion (rowAddr site.addr stride off)
      rhVictimBytes site.segStart site.segEnd, inside p := fun off hoff =>
    hinside off (mem_rhVictims hrows hoff).1 _
  refine Triple.bind (rhFill_triple
    (fun a ha p hp t ht => hwrite p _ t (hinside _ (hrows a ha) _ p hp) ht)
    fun off hoff p hp t ht => hwrite p _ t (hvictim off hoff p hp) ht) fun _ => ?_
  refine (rhCheck_triple fun off hoff p hp t ht => ⟨?_, fun o ho q hq => ?_⟩).post
    fun _ t ht => ht.1
  · exact ht.1.checked (hvictim off hoff p hp) (ht.2 off hoff p hp)
  · rw [store_checked]
    exact ht.2 o ho q hq

end

/-! ### The test -/

/-- A word at the address lies in the segment from its first byte to its last. -/
def VmSegment.Holds (arch : Arch) (seg : VmSegment) (addr : ℕ) : Prop :=
  seg.start ≤ addr ∧ addr + arch.wordBytes ≤ seg.stop + arch.wordBytes

/-- What the test does at a site with a stride, a pattern and a period stays inside a segment: the
entries of the sequence and what is filled and checked, where the loops over the pointers come to
just the words of their regions. Aggressors leave the victims alone, and a memory without faults is
not reported. -/
structure StaysInside (env : TestEnv arch) (seg : VmSegment) (site : HammerSite arch)
    (stride : Testword arch) (pattern : List Aggressor) (period : ℕ) : Prop where
  length_le : (rhMaterialize pattern site.addr stride site.segStart site.segEnd period).length ≤
    min period rhMaxPeriod
  entries : ∀ addr ∈ rhMaterialize pattern site.addr stride site.segStart site.segEnd period,
    seg.Holds arch addr.toNat
  pointers : ∀ off bytes, bytes = rhAggrBytes ∨ bytes = rhVictimBytes →
    ∃ fuel, rhPointers (rowAddr site.addr stride off) bytes site.segStart site.segEnd fuel =
      some ((rhRegion (rowAddr site.addr stride off) bytes site.segStart site.segEnd).map fun p =>
        BitVec.ofNat arch.bits (p * arch.wordBytes))
  harmless : ∀ vword s, Appends (Event.Harmless env fun p => seg.Holds arch (p * arch.wordBytes)) s
    ((rhFillCheck env site stride pattern vword).exec s).2
  apart : ∀ off ∈ rhVictims pattern,
    ∀ p ∈ rhRegion (rowAddr site.addr stride off) rhVictimBytes site.segStart site.segEnd,
      ∀ a ∈ pattern,
        p ∉ rhRegion (rowAddr site.addr stride a.offset) rhAggrBytes site.segStart site.segEnd

section

variable {env : TestEnv arch} {seg first : VmSegment} {site : HammerSite arch}
  {stride : Testword arch} {pattern : List Aggressor} {period : ℕ}

/-- Between the bounds of a site is inside the segment. -/
theorem SiteOf.holds (hsite : SiteOf seg site) (hlt : seg.start < 2 ^ arch.bits) {addr : ℕ}
    (hlo : site.segStart.toNat ≤ addr) (hhi : addr + arch.wordBytes ≤ site.segEnd.toNat) :
    seg.Holds arch addr := by
  rw [hsite.segStart, BitVec.toNat_ofNat, Nat.mod_eq_of_lt hlt] at hlo
  rw [hsite.segEnd, segmentEnd, ← BitVec.ofNat_add, BitVec.toNat_ofNat] at hhi
  exact ⟨hlo, hhi.trans (Nat.mod_le _ _)⟩

section

variable (hvm : LineAligned arch env.vmMap) (hseg : seg ∈ env.vmMap) (hsite : SiteOf seg site)

include hvm hseg hsite

theorem SiteOf.atLine_segStart : AtLine site.segStart :=
  hsite.segStart ▸ AtLine.ofNat (hvm.start_dvd seg hseg)

theorem SiteOf.atLine_segEnd : AtLine site.segEnd := by
  rw [hsite.segEnd, segmentEnd, ← BitVec.ofNat_add]
  exact AtLine.ofNat (hvm.stop_dvd seg hseg)

variable (haddr : AtLine site.addr) (hstride : IsStride stride)

include haddr hstride

/-- The words of a row are inside. -/
theorem SiteOf.holds_of_mem_rhRegion {off bytes p : ℕ}
    (hp : p ∈ rhRegion (rowAddr site.addr stride off) bytes site.segStart site.segEnd) :
    seg.Holds arch (p * arch.wordBytes) := by
  obtain ⟨hlo, hhi, -⟩ := mem_rhRegion (haddr.row hstride.atLine off)
    (hsite.atLine_segStart hvm hseg) hp
  exact hsite.holds (hvm.start_lt seg hseg) hlo hhi

/-- At one site. -/
theorem SiteOf.staysInside (hpattern : IsPattern arch period pattern) :
    StaysInside env seg site stride pattern period where
  length_le := length_rhMaterialize_le _ _ _ _ _ _
  entries addr h := by
    obtain ⟨hlo, hhi⟩ := mem_rhMaterialize haddr hstride.atLine h
    exact hsite.holds (hvm.start_lt seg hseg) hlo hhi
  pointers off bytes hbytes := by
    have hdvd : lineBytes ∣ bytes := by
      obtain rfl | rfl := hbytes
      · decide
      · decide
    exact exists_rhPointers (haddr.row hstride.atLine off) (hsite.atLine_segStart hvm hseg)
      (hsite.atLine_segEnd hvm hseg) hdvd
  harmless vword s := by
    refine (rhFillCheck_triple (R := fun _ => Appends _ s) hpattern.offset_lt
      (fun off _ bytes p hp => ?_) s).final (Appends.refl s) (fun _ _ ht => ht) fun _ _ ht => ht
    exact hsite.holds_of_mem_rhRegion hvm hseg haddr hstride hp
  apart off hoff p hp a ha := by
    obtain ⟨hlt, hne⟩ := mem_rhVictims hpattern.offset_lt hoff
    exact rows_apart haddr hstride (hsite.atLine_segStart hvm hseg) hlt (hpattern.offset_lt a ha)
      (hne a ha) hp

end

/-- **Rowhammer stays inside its segment.** The segments of every `vm_map` that is set up are
aligned to cache lines. On such a map, with every stride and every pattern the test can choose,
the test stays inside the segment it has selected for a site.

The addresses are words of the machine, so a row may wrap around the end of the address space;
what is then left of it is cut off by the bounds of the segment. The number of the site and the
period are arbitrary, and so is the memory, which may have faults: only the last part of
`StaysInside` asks for one that works. -/
theorem rowhammer_staysInside :
    (∀ (numa : NumaConfig) (limits : PageLimits) (pmMap : List PmSegment) (k : ℕ),
      LineAligned arch (testsVmMap arch numa limits pmMap k)) ∧
    ∀ env : TestEnv arch, LineAligned arch env.vmMap → ∀ first, env.vmMap.head? = some first →
      ∀ (i period : ℕ) (stride : Testword arch) (pattern : List Aggressor), IsStride stride →
        IsPattern arch period pattern →
          ∃ seg ∈ env.vmMap, SiteOf seg (hammerSite arch first env.vmMap i) ∧
            StaysInside env seg (hammerSite arch first env.vmMap i) stride pattern period := by
  refine ⟨fun numa limits pmMap k => lineAligned_testsVmMap, ?_⟩
  intro env hvm first hfirst i period stride pattern hstride hpattern
  have hmem : first ∈ env.vmMap := List.mem_of_mem_head? hfirst
  obtain ⟨seg, hseg, hsite⟩ : ∃ seg ∈ env.vmMap,
      SiteOf seg (hammerSite arch first env.vmMap i) := exists_siteOf hmem i
  exact ⟨seg, hseg, hsite, hsite.staysInside hvm hseg (atLine_hammerSite hvm hmem i) hstride
    hpattern⟩

/-- A window with a segment below one megabyte and another one at the top of the address space. -/
def topOfSpaceEnv : TestEnv .b32 where
  spinSize := 2 ^ 27
  spinSize_pos := by decide
  vmMap := [⟨0, 0x500, 0x9EFFC, 0⟩, ⟨0xF0000, 0xF0000000, 0xFFFFFFFC, 0⟩]
  cfg := ⟨1, false, 1, fun _ => 0, fun _ => 0, fun _ => 1⟩
  myCpu := 0
  readBack := fun _ v => v
  bail := fun _ => false

/-- The theorem at the last site of that window, with a pattern of the fuzzer. -/
theorem rowhammer_staysInside_topOfSpace :
    ∃ seg ∈ topOfSpaceEnv.vmMap,
      SiteOf seg (hammerSite .b32 ⟨0, 0x500, 0x9EFFC, 0⟩ topOfSpaceEnv.vmMap 63) ∧
        StaysInside topOfSpaceEnv seg
          (hammerSite .b32 ⟨0, 0x500, 0x9EFFC, 0⟩ topOfSpaceEnv.vmMap 63) 0x100000
            (rhFuzzPattern (0x9e3779b1 : Testword .b32) 64).1 64 :=
  rowhammer_staysInside.2 topOfSpaceEnv ⟨by decide, by decide, by decide⟩ _ rfl 63 64 0x100000 _
    ⟨1 <<< 20, by decide, by decide⟩ (.inr ⟨_, rfl⟩)

end

/-! ### The whole test -/

section

variable {env : TestEnv arch} {timing : HammerTiming arch} {s : TestState arch}

/-- What a run of the test may add to the log: nothing outside the segments, and no report where
there is no fault. -/
def HarmlessSince (env : TestEnv arch) (s : TestState arch) : TestState arch → Prop :=
  Appends (Event.Harmless env fun p => ∃ seg ∈ env.vmMap, seg.Holds arch (p * arch.wordBytes)) s

theorem isPattern_tripPattern (useFuzz : Bool) (iter : ℕ) (fuzzState : Testword arch) :
    IsPattern arch timing.period (tripPattern timing useFuzz iter fuzzState).1 := by
  rw [tripPattern]
  split
  · exact .inr ⟨fuzzState, rfl⟩
  · left
    have hlt : iter % 5 < rhStaticPatterns.length := Nat.mod_lt _ (by decide)
    rw [List.getD_eq_getElem _ _ hlt]
    exact List.getElem_mem hlt

theorem isStride_blind (iter : ℕ) :
    IsStride (BitVec.ofNat arch.bits (rhBlindStrides.getD (iter % 5) 0)) := by
  have hlt : iter % 5 < rhBlindStrides.length := Nat.mod_lt _ (by decide)
  refine ⟨_, List.mem_append_left _ ?_, rfl⟩
  rw [List.getD_eq_getElem _ _ hlt]
  exact List.getElem_mem hlt

variable (hvm : LineAligned arch env.vmMap)
  (hstride : timing.discovered = 0 ∨ IsStride timing.discovered)

include hvm hstride

/-- One trip. -/
theorem hammerTrip_keeps {seg : VmSegment} {site : HammerSite arch} {pattern : List Aggressor}
    (hseg : seg ∈ env.vmMap) (hsite : SiteOf seg site) (haddr : AtLine site.addr)
    (hpattern : IsPattern arch timing.period pattern) (iter : ℕ) :
    Keeps (HarmlessSince env s) (hammerTrip env timing site pattern iter) := by
  rw [hammerTrip]
  have hchosen : IsStride (if timing.discovered ≠ 0 then timing.discovered
      else BitVec.ofNat arch.bits (rhBlindStrides.getD (iter % 5) 0)) := by
    split
    · next hne => exact hstride.resolve_left hne
    · exact isStride_blind iter
  refine Keeps.ite (fun _ => Keeps.pure ()) fun _ => ?_
  exact rhFillCheck_triple hpattern.offset_lt (fun off _ bytes p hp =>
    ⟨seg, hseg, hsite.holds_of_mem_rhRegion hvm hseg haddr hchosen hp⟩) s

theorem hammerLoop_keeps {seg : VmSegment} {site : HammerSite arch} (hseg : seg ∈ env.vmMap)
    (hsite : SiteOf seg site) (haddr : AtLine site.addr) (useFuzz : Bool) (trips iter : ℕ)
    (fuzzState : Testword arch) :
    Keeps (HarmlessSince env s) (hammerLoop env timing site useFuzz trips iter fuzzState) := by
  have htrip : ∀ iter fuzzState, Keeps (HarmlessSince env s)
      (hammerTrip env timing site (tripPattern timing useFuzz iter fuzzState).1 iter) :=
    fun iter fuzzState => hammerTrip_keeps hvm hstride hseg hsite haddr
      (isPattern_tripPattern useFuzz iter fuzzState) iter
  induction trips generalizing iter fuzzState with
  | zero =>
    rw [hammerLoop]
    exact (htrip iter fuzzState).bind fun _ => Keeps.pure _
  | succ trips ih =>
    rw [hammerLoop]
    refine (htrip iter fuzzState).bind fun _ => Keeps.bind (Triple.get fun t ht => ht) fun _ => ?_
    exact Keeps.ite (fun _ => Keeps.pure _) fun _ => ih _ _

omit hvm hstride in
theorem doTick_keeps : Keeps (HarmlessSince env s) (doTick env) := by
  refine Keeps.bind (Keeps.modify fun t ht => ht.event (log_doTick t) ⟨?_, ?_⟩) fun _ =>
    Keeps.bind (Triple.get fun t ht => ht) fun _ => ?_
  · exact fun p hp => hp.elim
  · exact fun _ _ _ _ _ => nofun
  · exact Keeps.ite (fun _ => Keeps.throw _) fun _ => Keeps.pure ()

/-- **The whole run.** Whatever is measured, the test touches words of the segments only, and on a
memory without faults it reports nothing. -/
theorem testRowhammer_harmless (passNum : ℕ) (s : TestState arch) :
    HarmlessSince env s ((testRowhammer env timing passNum).exec s).2 := by
  have hempty : Keeps (HarmlessSince env s) (emptySite env) :=
    Keeps.bind (Keeps.modify fun t ht => ht.of_log rfl) fun _ =>
      Keeps.ite (fun _ => Keeps.pure ()) fun _ => doTick_keeps
  have hsite : ∀ seg ∈ env.vmMap, ∀ fuzzState i,
      Keeps (HarmlessSince env s) (hammerSegment env timing seg fuzzState i) := by
    intro seg hseg fuzzState i
    obtain ⟨seg', hseg', hsite⟩ : ∃ seg' ∈ env.vmMap,
        SiteOf seg' (hammerSite arch seg env.vmMap i) := exists_siteOf hseg i
    have hloop := fun useFuzz trips => hammerLoop_keeps (s := s) hvm hstride hseg' hsite
      (atLine_hammerSite hvm hseg i) useFuzz trips 0 fuzzState
    refine Keeps.bind (Keeps.modify fun t ht => ht.of_log rfl) fun _ =>
      Keeps.ite (fun _ => Keeps.pure _) fun _ => ?_
    exact Keeps.bind (Keeps.modify fun t ht => ht.of_log rfl) fun _ => (hloop _ _).bind fun _ =>
      doTick_keeps.bind fun _ => Keeps.pure _
  refine Keeps.final ?_ (Appends.refl s)
  rw [testRowhammer]
  split
  · exact Keeps.foldlM (fun _ _ => hempty) ()
  · next seg rest hmap =>
    have hseg : seg ∈ env.vmMap := by
      rw [hmap]
      exact List.mem_cons_self
    refine Keeps.ite (fun _ => Keeps.foldlM (fun _ _ => hempty) ()) fun _ => ?_
    exact (Keeps.foldlM (hsite seg hseg) _).bind fun _ => Keeps.pure ()

end

end Memtest
