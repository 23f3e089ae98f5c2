import Memtest.Lib.BitFields
import Memtest.Smp.NumaCompaction
import Memtest.Windows.Narrow

/-!
# What the compaction computes

`check_if_needs_to_map` looks for the largest offset at which a range of another domain than the
first one ends, and counts its bits. The bit behind them is where the node's number goes
(`LoongArch.nodeBit`). Here the words are read as numbers: what a segment and a range become, and
when the function returns at all (`LoongArch.exists_checkIfNeedsToMap_iff`). Its counters have 8
bits and the affinity table has up to 512 ranges, so that the loops over it do not always end.
-/

namespace Memtest

namespace LoongArch

open NarrowCounter

variable {pmMap : List PmSegment} {ranges : List MemoryAffinity} {seg seg' : PmSegment}
  {r r' : MemoryAffinity} {m : NumaMap} {highestBit : BitVec 8} {h n p q fuel fuel' : ℕ}

/-! ### Shifts of an `int` -/

theorem shlInt_natCast (hn : 0 < n) (h : ℕ) :
    shlInt n h = if n * 2 ^ h < 2 ^ 31 then some (BitVec.ofNat 64 (n * 2 ^ h)) else none := by
  rw [shlInt, Int.toNat_natCast]
  refine if_congr ⟨fun hc => hc.2.2, fun hc => ⟨Int.natCast_nonneg h, ?_, hc⟩⟩ rfl rfl
  have hlt : 2 ^ h < 2 ^ 31 := (Nat.le_mul_of_pos_left _ hn).trans_lt hc
  have h31 := (Nat.pow_lt_pow_iff_right Nat.one_lt_two).mp hlt
  omega

theorem shlInt_sub (hn : 0 < n) (h : ℕ) :
    shlInt n (h - pageShift) =
      if pageShift ≤ h ∧ n * 2 ^ (h - pageShift) < 2 ^ 31 then
        some (BitVec.ofNat 64 (n * 2 ^ (h - pageShift)))
      else none := by
  by_cases hle : pageShift ≤ h
  · rw [← Int.natCast_sub hle, shlInt_natCast hn]
    exact if_congr (and_iff_right hle).symm rfl rfl
  · rw [if_neg fun hc => hle hc.1, shlInt, if_neg fun hc => ?_]
    have hc := hc.1
    omega

/-! ### The tables -/

/-- The node of a page. -/
def nodeOfPage (page : ℕ) : ℕ := BitField.get (nodeOffset - pageShift) 4 page

/-- The node of an address. -/
def nodeOfAddr (addr : ℕ) : ℕ := BitField.get nodeOffset 4 addr

theorem nodeOfPage_lt (p : ℕ) : nodeOfPage p < 16 := BitField.get_lt _ _ _

theorem nodeMask_eq : nodeMask = BitField.mask 64 4 := rfl

theorem toNat_nodeOfPage (x : BitVec 64) :
    (x >>> (nodeOffset - pageShift) &&& nodeMask).toNat = nodeOfPage x.toNat :=
  BitField.toNat_shiftRight_and (show 4 ≤ 64 by decide) x

theorem toNat_nodeOfAddr (x : BitVec 64) :
    (x >>> nodeOffset &&& nodeMask).toNat = nodeOfAddr x.toNat :=
  BitField.toNat_shiftRight_and (show 4 ≤ 64 by decide) x

theorem ne_zero_iff_toNat (x : BitVec 64) : x ≠ 0#64 ↔ x.toNat ≠ 0 := by
  rw [ne_eq, ne_eq, ← BitVec.toNat_inj]
  rfl

/-- A node's number goes in above what is left of the word. -/
theorem toNat_moveNode {offset s : ℕ} {x : BitVec 64} (hoffset : offset + 4 ≤ 64)
    (hx : BitField.clear offset 4 x.toNat < 2 ^ s) (hn : n * 2 ^ s < 2 ^ 31) :
    (moveNode offset (BitVec.ofNat 64 (n * 2 ^ s)) x).toNat =
      BitField.clear offset 4 x.toNat + n * 2 ^ s := by
  have hclear : (x &&& ~~~(nodeMask <<< offset)).toNat = BitField.clear offset 4 x.toNat :=
    BitField.toNat_and_not hoffset x
  rw [moveNode, BitField.toNat_or (hclear ▸ hx), hclear]
  rw [BitVec.toNat_ofNat, Nat.mod_eq_of_lt (hn.trans (by decide))]

theorem mapPmSegment_of_zero (hz : nodeOfPage seg.start.toNat = 0) :
    mapPmSegment highestBit seg = some seg := by
  rw [mapPmSegment]
  refine if_neg ?_
  rw [ne_zero_iff_toNat, toNat_nodeOfPage]
  exact not_not_intro hz

theorem mapPmSegment_of_pos (hpos : 0 < nodeOfPage seg.start.toNat) :
    mapPmSegment highestBit seg =
      if pageShift ≤ highestBit.toNat ∧
          nodeOfPage seg.start.toNat * 2 ^ (highestBit.toNat - pageShift) < 2 ^ 31 then
        let moved := BitVec.ofNat 64
          (nodeOfPage seg.start.toNat * 2 ^ (highestBit.toNat - pageShift))
        some ⟨moveNode (nodeOffset - pageShift) moved seg.start,
          moveNode (nodeOffset - pageShift) moved seg.stop⟩
      else none := by
  rw [mapPmSegment]
  refine (if_pos ?_).trans ?_
  · rw [ne_zero_iff_toNat, toNat_nodeOfPage]
    exact hpos.ne'
  · rw [toNat_nodeOfPage, shlInt_sub hpos]
    split_ifs <;> rfl

theorem mapAffinityRange_of_not (hr : r.start < 2 ^ 64)
    (hz : ¬(r.proximityDomainIdx ≠ 0 ∧ 0 < nodeOfAddr r.start)) :
    mapAffinityRange highestBit r = some r := by
  rw [mapAffinityRange]
  refine if_neg fun hc => hz ⟨hc.1, Nat.pos_of_ne_zero ?_⟩
  have hnode := (ne_zero_iff_toNat _).mp hc.2
  rwa [toNat_nodeOfAddr, BitVec.toNat_ofNat, Nat.mod_eq_of_lt hr] at hnode

theorem mapAffinityRange_of_pos (hr : r.start < 2 ^ 64) (hidx : r.proximityDomainIdx ≠ 0)
    (hpos : 0 < nodeOfAddr r.start) :
    mapAffinityRange highestBit r =
      if nodeOfAddr r.start * 2 ^ highestBit.toNat < 2 ^ 31 then
        let moved := BitVec.ofNat 64 (nodeOfAddr r.start * 2 ^ highestBit.toNat)
        some ⟨r.proximityDomainIdx, (moveNode nodeOffset moved (BitVec.ofNat 64 r.start)).toNat,
          (moveNode nodeOffset moved (BitVec.ofNat 64 r.stop)).toNat⟩
      else none := by
  have hnode : (BitVec.ofNat 64 r.start >>> nodeOffset &&& nodeMask).toNat =
      nodeOfAddr r.start := by
    rw [toNat_nodeOfAddr, BitVec.toNat_ofNat, Nat.mod_eq_of_lt hr]
  rw [mapAffinityRange]
  refine (if_pos ⟨hidx, (ne_zero_iff_toNat _).mpr (hnode ▸ hpos.ne')⟩).trans ?_
  rw [hnode, shlInt_natCast hpos]
  split_ifs <;> rfl

/-! ### The bit above the largest offset -/

/-- The offset in its node at which a range ends. -/
def endOffset (r : MemoryAffinity) : ℕ := BitField.clear nodeOffset 4 r.stop

/-- The largest offset at which a range ends that is not of the first proximity domain. -/
def largestOffset (ranges : List MemoryAffinity) : ℕ :=
  ranges.foldl (fun x r => if r.proximityDomainIdx ≠ 0 then max x (endOffset r) else x) 0

/-- The bit that is above every bit of the largest offset. -/
def nodeBit (ranges : List MemoryAffinity) : ℕ := max 1 (largestOffset ranges).log2 + 1

/-- The number of bits that the code counts for an offset. -/
def bitCount (x : ℕ) : ℕ := if x = 0 then 0 else max 1 x.log2

theorem countBits_eq {x : BitVec 64} {bits : BitVec 8} (hx : 0 < x.toNat)
    (hfuel : x.toNat.log2 < fuel) :
    countBits fuel x bits = some (bits + BitVec.ofNat 8 (max 1 x.toNat.log2)) := by
  induction fuel generalizing x bits with
  | zero => exact absurd hfuel (Nat.not_lt_zero _)
  | succ fuel ih =>
    have hhalf : (x >>> 1).toNat = x.toNat / 2 := by
      rw [BitVec.toNat_ushiftRight, Nat.shiftRight_eq_div_pow, Nat.pow_one]
    have hgt : x >>> 1 > 1#64 ↔ 1 < x.toNat / 2 := by
      rw [gt_iff_lt, BitVec.lt_def, hhalf]
      rfl
    rw [countBits]
    by_cases hbig : 1 < x.toNat / 2
    · have hlog : x.toNat.log2 = (x.toNat / 2).log2 + 1 := by
        rw [Nat.log2_def, if_pos (by omega)]
      have hone : 1 ≤ (x.toNat / 2).log2 := (Nat.le_log2 (by omega)).mpr hbig
      refine (if_pos (hgt.mpr hbig)).trans ?_
      rw [ih (by omega) (hhalf.symm ▸ by omega), hhalf, hlog, Nat.max_eq_right hone,
        Nat.max_eq_right (by omega), BitVec.add_assoc, Nat.add_comm, BitVec.ofNat_add]
    · refine (if_neg (mt hgt.mp hbig)).trans ?_
      have hlog : x.toNat.log2 ≤ 1 := Nat.le_of_lt_succ ((Nat.log2_lt hx.ne').mpr (by omega))
      rw [Nat.max_eq_left hlog]

theorem checkoutMaxMemoryBits_eq (hr : r.stop < 2 ^ 64) (hfuel : 64 ≤ fuel) :
    checkoutMaxMemoryBits fuel r = some (BitVec.ofNat 8 (bitCount (endOffset r))) := by
  have hclear : (BitVec.ofNat 64 r.stop &&& ~~~(nodeMask <<< nodeOffset)).toNat = endOffset r := by
    rw [nodeMask_eq, BitField.toNat_and_not (by decide), BitVec.toNat_ofNat, Nat.mod_eq_of_lt hr]
    rfl
  have hgt : BitVec.ofNat 64 r.stop &&& ~~~(nodeMask <<< nodeOffset) > 0#64 ↔ 0 < endOffset r := by
    rw [gt_iff_lt, BitVec.lt_def, hclear]
    rfl
  rw [checkoutMaxMemoryBits, bitCount]
  by_cases hpos : 0 < endOffset r
  · have hlog : (endOffset r).log2 < fuel :=
      (Nat.log2_lt hpos.ne').mpr ((BitField.clear_le _ _ _).trans_lt
        (hr.trans_le (Nat.pow_le_pow_right Nat.two_pos hfuel)))
    refine (if_pos (hgt.mpr hpos)).trans ?_
    rw [countBits_eq (hclear ▸ hpos) (hclear ▸ hlog), hclear, if_neg hpos.ne', BitVec.zero_add]
  · refine (if_neg (mt hgt.mp hpos)).trans ?_
    rw [if_pos (Nat.eq_zero_of_not_pos hpos)]

theorem bitCount_mono {x y : ℕ} (hle : x ≤ y) : bitCount x ≤ bitCount y := by
  rw [bitCount, bitCount]
  split_ifs with hx hy hy
  · exact le_rfl
  · exact Nat.zero_le _
  · omega
  · refine max_le_max le_rfl ((Nat.le_log2 hy).mpr ?_)
    exact (Nat.log2_self_le hx).trans hle

theorem bitCount_lt {x : ℕ} (hx : x < 2 ^ 64) : bitCount x < 64 := by
  rw [bitCount]
  split_ifs with hz
  · decide
  · exact max_lt (by decide) ((Nat.log2_lt hz).mpr hx)

theorem bitCount_max (x y : ℕ) : bitCount (max x y) = max (bitCount x) (bitCount y) := by
  rcases le_total x y with hle | hle
  · rw [max_eq_right hle, max_eq_right (bitCount_mono hle)]
  · rw [max_eq_left hle, max_eq_left (bitCount_mono hle)]

theorem raiseMaxMemoryBits_eq {x : ℕ} (hx : x < 2 ^ 64) (hr : r.stop < 2 ^ 64)
    (hfuel : 64 ≤ fuel) :
    raiseMaxMemoryBits fuel (BitVec.ofNat 8 (bitCount x)) r =
      some (BitVec.ofNat 8 (bitCount
        (if r.proximityDomainIdx ≠ 0 then max x (endOffset r) else x))) := by
  rw [raiseMaxMemoryBits]
  split_ifs with hidx
  · have hend : endOffset r < 2 ^ 64 := (BitField.clear_le _ _ _).trans_lt hr
    have hxlt := bitCount_lt hx
    have hendlt := bitCount_lt hend
    rw [checkoutMaxMemoryBits_eq hr hfuel, Option.map_some, bitCount_max]
    have hlt : BitVec.ofNat 8 (bitCount x) < BitVec.ofNat 8 (bitCount (endOffset r)) ↔
        bitCount x < bitCount (endOffset r) := by
      rw [BitVec.lt_def, BitVec.toNat_ofNat, BitVec.toNat_ofNat, Nat.mod_eq_of_lt (by omega),
        Nat.mod_eq_of_lt (by omega)]
    by_cases hc : bitCount x < bitCount (endOffset r)
    · rw [if_pos (hlt.mpr hc), max_eq_right hc.le]
    · rw [if_neg (mt hlt.mp hc), max_eq_left (Nat.not_lt.mp hc)]
  · rfl

theorem foldlM_raiseMaxMemoryBits (hr : ∀ r ∈ ranges, r.stop < 2 ^ 64) (hfuel : 64 ≤ fuel) :
    ranges.foldlM (raiseMaxMemoryBits fuel) 0#8 =
      some (BitVec.ofNat 8 (bitCount (largestOffset ranges))) := by
  suffices key : ∀ x < 2 ^ 64,
      ranges.foldlM (raiseMaxMemoryBits fuel) (BitVec.ofNat 8 (bitCount x)) =
        some (BitVec.ofNat 8 (bitCount (ranges.foldl (fun x r =>
          if r.proximityDomainIdx ≠ 0 then max x (endOffset r) else x) x))) from
    key 0 (by decide)
  induction ranges with
  | nil => exact fun x _ => rfl
  | cons r ranges ih =>
    intro x hx
    have hr₀ := hr r List.mem_cons_self
    rw [List.foldlM_cons, raiseMaxMemoryBits_eq hx hr₀ hfuel]
    refine ih (fun r' hr' => hr r' (List.mem_cons_of_mem _ hr')) _ ?_
    split_ifs
    · exact max_lt hx ((BitField.clear_le _ _ _).trans_lt hr₀)
    · exact hx

theorem endOffset_le_largestOffset (hmem : r ∈ ranges) (hidx : r.proximityDomainIdx ≠ 0) :
    endOffset r ≤ largestOffset ranges := by
  rw [largestOffset]
  suffices key : ∀ x, (r ∈ ranges → endOffset r ≤ ranges.foldl (fun x r =>
      if r.proximityDomainIdx ≠ 0 then max x (endOffset r) else x) x) ∧
      x ≤ ranges.foldl (fun x r =>
        if r.proximityDomainIdx ≠ 0 then max x (endOffset r) else x) x from (key 0).1 hmem
  clear hmem
  induction ranges with
  | nil => exact fun x => ⟨fun hmem => absurd hmem List.not_mem_nil, le_rfl⟩
  | cons r₀ ranges ih =>
    intro x
    rw [List.foldl_cons]
    obtain ⟨hin, hle⟩ := ih (if r₀.proximityDomainIdx ≠ 0 then max x (endOffset r₀) else x)
    refine ⟨fun hmem => ?_, le_trans ?_ hle⟩
    · rcases List.mem_cons.mp hmem with rfl | hmem
      · refine le_trans ?_ hle
        rw [if_pos hidx]
        exact le_max_right _ _
      · exact hin hmem
    · split_ifs
      · exact le_max_left _ _
      · exact le_rfl

theorem largestOffset_lt (hr : ∀ r ∈ ranges, r.stop < 2 ^ 64) : largestOffset ranges < 2 ^ 64 := by
  rw [largestOffset]
  refine List.foldlRecOn ranges _ (motive := fun x => x < 2 ^ 64) (by decide) fun x hx r hmem => ?_
  split_ifs
  · exact max_lt hx ((BitField.clear_le _ _ _).trans_lt (hr r hmem))
  · exact hx

/-- The ranges of the other domains end below the bit. -/
theorem endOffset_lt (hmem : r ∈ ranges) (hidx : r.proximityDomainIdx ≠ 0) :
    endOffset r < 2 ^ nodeBit ranges := by
  refine (endOffset_le_largestOffset hmem hidx).trans_lt (Nat.lt_log2_self.trans_le ?_)
  exact Nat.pow_le_pow_right Nat.two_pos (Nat.succ_le_succ (le_max_right _ _))

/-! ### The whole function -/

theorem countBits_mono {x : BitVec 64} {bits b : BitVec 8} (hb : countBits fuel x bits = some b)
    (hle : fuel ≤ fuel') : countBits fuel' x bits = some b := by
  induction fuel generalizing x bits fuel' with
  | zero => exact absurd hb (by simp [countBits])
  | succ fuel ih =>
    obtain ⟨fuel', rfl⟩ := Nat.exists_eq_add_of_le' (Nat.one_le_of_lt hle)
    rw [countBits] at hb ⊢
    by_cases hbig : x >>> 1 > 1#64
    · exact (if_pos hbig).trans (ih ((if_pos hbig).symm.trans hb) (Nat.le_of_succ_le_succ hle))
    · exact (if_neg hbig).trans ((if_neg hbig).symm.trans hb)

theorem raiseMaxMemoryBits_mono (hle : fuel ≤ fuel') (bits : BitVec 8) (r : MemoryAffinity)
    (b : BitVec 8) (hb : raiseMaxMemoryBits fuel bits r = some b) :
    raiseMaxMemoryBits fuel' bits r = some b := by
  rw [raiseMaxMemoryBits] at hb ⊢
  by_cases hidx : r.proximityDomainIdx ≠ 0
  · rw [if_pos hidx] at hb ⊢
    obtain ⟨local', hlocal, hb⟩ := Option.map_eq_some_iff.mp hb
    refine Option.map_eq_some_iff.mpr ⟨local', ?_, hb⟩
    rw [checkoutMaxMemoryBits] at hlocal ⊢
    by_cases hpos : BitVec.ofNat 64 r.stop &&& ~~~(nodeMask <<< nodeOffset) > 0#64
    · exact (if_pos hpos).trans (countBits_mono ((if_pos hpos).symm.trans hlocal) hle)
    · exact (if_neg hpos).trans ((if_neg hpos).symm.trans hlocal)
  · rw [if_neg hidx] at hb ⊢
    exact hb

theorem mapTheNumaMemoryRange_mono {m' : NumaMap} (hle : fuel ≤ fuel')
    (hm : mapTheNumaMemoryRange fuel highestBit m = some m') :
    mapTheNumaMemoryRange fuel' highestBit m = some m' := by
  obtain ⟨pmMap, hpm, hm⟩ := Option.bind_eq_some_iff.mp hm
  obtain ⟨ranges, hranges, rfl⟩ := Option.map_eq_some_iff.mp hm
  rw [mapTheNumaMemoryRange, forBelow_mono (fun _ _ _ h => h) hpm hle, Option.bind_some,
    forBelow_mono (fun _ _ _ h => h) hranges hle, Option.map_some]

theorem checkIfNeedsToMap_mono {m' : NumaMap} (hle : fuel ≤ fuel')
    (hm : checkIfNeedsToMap fuel m = some m') : checkIfNeedsToMap fuel' m = some m' := by
  rw [checkIfNeedsToMap] at hm ⊢
  by_cases hz : m.numProximityDomains = 0
  · rw [if_pos hz] at hm ⊢
    exact hm
  · rw [if_neg hz] at hm ⊢
    obtain ⟨bits, hbits, hm⟩ := Option.bind_eq_some_iff.mp hm
    rw [forBelow_mono (readAt_mono fun s r t => raiseMaxMemoryBits_mono hle s r t) hbits hle,
      Option.bind_some]
    by_cases hpos : bits > 0#8
    · rw [if_pos hpos] at hm ⊢
      exact mapTheNumaMemoryRange_mono hle hm
    · rw [if_neg hpos] at hm ⊢
      exact hm

/-- The tables after the compaction with a bit. -/
structure Mapped (pmMap : List PmSegment) (ranges : List MemoryAffinity) (numProximityDomains : ℕ)
    (m : NumaMap) : Prop where
  pmMap_eq : List.Forall₂ (fun seg seg' =>
    mapPmSegment (BitVec.ofNat 8 (nodeBit ranges)) seg = some seg') pmMap m.pmMap
  ranges_eq : List.Forall₂ (fun r r' =>
    mapAffinityRange (BitVec.ofNat 8 (nodeBit ranges)) r = some r') ranges m.memoryAffinityRanges
  numProximityDomains_eq : m.numProximityDomains = numProximityDomains
  mapNumaMemoryRange_eq : m.mapNumaMemoryRange = true
  highestMapBit_eq : m.highestMapBit = BitVec.ofNat 8 (nodeBit ranges)

theorem nodeBit_eq (hpos : 0 < largestOffset ranges) :
    BitVec.ofNat 8 (bitCount (largestOffset ranges)) + 1#8 = BitVec.ofNat 8 (nodeBit ranges) := by
  rw [bitCount, if_neg hpos.ne']
  exact (BitVec.ofNat_add _ 1).symm

theorem mapTheNumaMemoryRange_eq (hpm : m.pmMap.length ≤ maxMemSegments)
    (hranges : m.memoryAffinityRanges.length ≤ 255) (hfuel : 256 ≤ fuel) :
    mapTheNumaMemoryRange fuel highestBit m =
      (m.pmMap.mapM (mapPmSegment highestBit)).bind fun pmMap =>
        (m.memoryAffinityRanges.mapM (mapAffinityRange highestBit)).map fun ranges =>
          { m with pmMap := pmMap, memoryAffinityRanges := ranges } := by
  have hpm' : m.pmMap.length < 256 := Nat.lt_of_le_of_lt hpm (by decide)
  have hranges' : m.memoryAffinityRanges.length < 256 := Nat.lt_succ_of_le hranges
  rw [mapTheNumaMemoryRange, forBelow_updateAt hpm' (hpm'.trans_le hfuel),
    forBelow_updateAt hranges' (hranges'.trans_le hfuel)]

theorem checkIfNeedsToMap_eq {numProximityDomains : ℕ} (hr : ∀ r ∈ ranges, r.stop < 2 ^ 64)
    (hnum : numProximityDomains ≠ 0) (hlen : ranges.length ≤ 255) (hfuel : 256 ≤ fuel) :
    checkIfNeedsToMap fuel (.boot pmMap ranges numProximityDomains) =
      if 0 < largestOffset ranges then
        mapTheNumaMemoryRange fuel (BitVec.ofNat 8 (nodeBit ranges))
          ⟨pmMap, ranges, numProximityDomains, true, BitVec.ofNat 8 (nodeBit ranges)⟩
      else some (.boot pmMap ranges numProximityDomains) := by
  have hlen' : ranges.length < 256 := Nat.lt_succ_of_le hlen
  have hbits : forBelow ranges.length (readAt ranges (raiseMaxMemoryBits fuel)) fuel 0#8 0#8 =
      some (BitVec.ofNat 8 (bitCount (largestOffset ranges))) := by
    rw [forBelow_readAt hlen' (hlen'.trans_le hfuel),
      foldlM_raiseMaxMemoryBits hr ((by decide : 64 ≤ 256).trans hfuel)]
  have hgt : BitVec.ofNat 8 (bitCount (largestOffset ranges)) > 0#8 ↔ 0 < largestOffset ranges := by
    have hlt := bitCount_lt (largestOffset_lt hr)
    rw [gt_iff_lt, BitVec.lt_def, BitVec.toNat_ofNat, BitVec.toNat_ofNat, Nat.zero_mod,
      Nat.mod_eq_of_lt (by omega), bitCount]
    split_ifs with hz
    · exact iff_of_false (lt_irrefl _) (by omega)
    · exact iff_of_true (Nat.lt_of_lt_of_le Nat.one_pos (le_max_left _ _)) (by omega)
  refine (if_neg hnum).trans ((congrArg (Option.bind · _) hbits).trans ?_)
  rw [Option.bind_some]
  by_cases hpos : 0 < largestOffset ranges
  · rw [if_pos (hgt.mpr hpos), if_pos hpos, nodeBit_eq hpos]
    rfl
  · rw [if_neg (mt hgt.mp hpos), if_neg hpos]

/-- When the function returns, and what becomes of the tables. -/
theorem exists_checkIfNeedsToMap_iff (hpm : pmMap.length ≤ maxMemSegments)
    (hr : ∀ r ∈ ranges, r.stop < 2 ^ 64) {numProximityDomains : ℕ} :
    (∃ fuel, checkIfNeedsToMap fuel (.boot pmMap ranges numProximityDomains) = some m) ↔
      (numProximityDomains = 0 ∧ m = .boot pmMap ranges numProximityDomains) ∨
        (numProximityDomains ≠ 0 ∧ ranges.length ≤ 255 ∧
          ((largestOffset ranges = 0 ∧ m = .boot pmMap ranges numProximityDomains) ∨
            (0 < largestOffset ranges ∧ Mapped pmMap ranges numProximityDomains m))) := by
  by_cases hz : numProximityDomains = 0
  · have hboot (fuel : ℕ) : checkIfNeedsToMap fuel (.boot pmMap ranges numProximityDomains) =
        some (.boot pmMap ranges numProximityDomains) := if_pos hz
    refine ⟨fun ⟨fuel, hm⟩ => .inl ⟨hz, Option.some.inj (hm.symm.trans (hboot fuel))⟩, ?_⟩
    rintro (⟨-, rfl⟩ | ⟨hne, -⟩)
    · exact ⟨0, hboot 0⟩
    · exact absurd hz hne
  simp only [hz, ne_eq, not_false_eq_true, false_and, false_or, true_and]
  constructor
  · rintro ⟨fuel, hm⟩
    have hlen : ranges.length ≤ 255 := by
      obtain ⟨bits, hbits, -⟩ := Option.bind_eq_some_iff.mp ((if_neg hz).symm.trans hm)
      exact Nat.le_of_lt_succ (lt_of_forBelow hbits)
    have hm := checkIfNeedsToMap_mono (le_max_left fuel 256) hm
    rw [checkIfNeedsToMap_eq hr hz hlen (le_max_right _ _)] at hm
    refine ⟨hlen, ?_⟩
    split_ifs at hm with hpos
    · rw [mapTheNumaMemoryRange_eq hpm hlen (le_max_right _ _)] at hm
      obtain ⟨pmMap', hpm', hm⟩ := Option.bind_eq_some_iff.mp hm
      obtain ⟨ranges', hranges', rfl⟩ := Option.map_eq_some_iff.mp hm
      exact .inr ⟨hpos, mapM_eq_some_iff.mp hpm', mapM_eq_some_iff.mp hranges', rfl, rfl, rfl⟩
    · exact .inl ⟨Nat.eq_zero_of_not_pos hpos, (Option.some.inj hm).symm⟩
  · rintro ⟨hlen, hcase⟩
    refine ⟨256, ?_⟩
    rw [checkIfNeedsToMap_eq hr hz hlen le_rfl]
    rcases hcase with ⟨h0, rfl⟩ | ⟨hpos, hmapped⟩
    · rw [if_neg (by omega)]
    · rw [if_pos hpos, mapTheNumaMemoryRange_eq hpm hlen le_rfl,
        mapM_eq_some_iff.mpr hmapped.pmMap_eq,
        mapM_eq_some_iff.mpr hmapped.ranges_eq]
      obtain ⟨pmMap', ranges', num, on, bit⟩ := m
      obtain ⟨-, -, rfl, rfl, rfl⟩ := hmapped
      rfl

end LoongArch

end Memtest
