import Memtest.Smp.NumaCompactionSpec

/-!
# When the compaction can be undone

A page goes to its offset with the number of its node above it, and `first_word_mapping` takes the
number out again. That needs room: no page of node 0 may have bits where the numbers go, which is
chosen by the other domains only, and the numbers have to be an `int` there. The ends of the
segments and the ranges are not in them, so that they may be in the next node already; then what is
left of the end is its offset 0.

The room that is needed (`LoongArch.FitsAt`) is exactly what makes the compaction one that can be
undone: if it is there, pages, segments and ranges go the same way and come back
(`FitsAt.isCompaction`), and if the tables have been compacted so, it was there
(`IsCompaction.fitsAt`).
-/

namespace Memtest

namespace LoongArch

open NarrowCounter

variable {pmMap : List PmSegment} {ranges : List MemoryAffinity} {seg seg' : PmSegment}
  {r r' : MemoryAffinity} {m : NumaMap} {c h n p q a b numProximityDomains : ℕ}

/-! ### Pages and addresses -/

/-- What is left of a page's number without its node. -/
def pageOffset (page : ℕ) : ℕ := BitField.clear (nodeOffset - pageShift) 4 page

/-- What is left of an address without its node. -/
def addrOffset (addr : ℕ) : ℕ := BitField.clear nodeOffset 4 addr

theorem pageOffset_add (p : ℕ) : pageOffset p + nodeOfPage p * 2 ^ 32 = p :=
  BitField.clear_add 32 4 p

theorem addrOffset_add (a : ℕ) : addrOffset a + nodeOfAddr a * 2 ^ 44 = a :=
  BitField.clear_add 44 4 a

theorem pageOffset_of_add (hc : c < 2 ^ 32) (hn : n < 16) :
    pageOffset (c + n * 2 ^ 32) = c ∧ nodeOfPage (c + n * 2 ^ 32) = n :=
  ⟨BitField.clear_add_mul hc hn, BitField.get_add_mul hc hn⟩

theorem addrOffset_of_add (hc : c < 2 ^ 44) (hn : n < 16) :
    addrOffset (c + n * 2 ^ 44) = c ∧ nodeOfAddr (c + n * 2 ^ 44) = n :=
  ⟨BitField.clear_add_mul hc hn, BitField.get_add_mul hc hn⟩

theorem nodeOfAddr_eq (a : ℕ) : nodeOfAddr a = nodeOfPage (a / pageSize) := by
  change a / 2 ^ 44 % 2 ^ 4 = a / 4096 / 2 ^ 32 % 2 ^ 4
  omega

theorem addrOffset_eq (a : ℕ) :
    addrOffset a = pageOffset (a / pageSize) * pageSize + a % pageSize := by
  change a / 2 ^ 48 * 2 ^ 48 + a % 2 ^ 44 =
    (a / 4096 / 2 ^ 36 * 2 ^ 36 + a / 4096 % 2 ^ 32) * 4096 + a % 4096
  omega

/-- What becomes of a page: what becomes of a segment's first page. -/
def NumaMap.compactPage (m : NumaMap) (page : ℕ) : Option ℕ :=
  if m.mapNumaMemoryRange then
    (mapPmSegment m.highestMapBit ⟨BitVec.ofNat 64 page, BitVec.ofNat 64 page⟩).map
      fun seg => seg.start.toNat
  else some page

/-- What becomes of an address: it keeps its place in its page. -/
def NumaMap.compactAddr (m : NumaMap) (addr : ℕ) : Option ℕ :=
  (m.compactPage (addr / pageSize)).map fun page => page * pageSize + addr % pageSize

section

variable (hon : m.mapNumaMemoryRange = true) (hbit : m.highestMapBit.toNat = h)

include hon

theorem compactPage_of_zero (hp : p < 2 ^ 64) (hz : nodeOfPage p = 0) :
    m.compactPage p = some p := by
  have hnat : (BitVec.ofNat 64 p).toNat = p := by rw [BitVec.toNat_ofNat, Nat.mod_eq_of_lt hp]
  rw [NumaMap.compactPage, if_pos hon, mapPmSegment_of_zero (hnat.symm ▸ hz), Option.map_some, hnat]

theorem compactAddr_of_zero (ha : a < 2 ^ 64) (hz : nodeOfAddr a = 0) :
    m.compactAddr a = some a := by
  rw [nodeOfAddr_eq] at hz
  rw [NumaMap.compactAddr, compactPage_of_zero hon ((Nat.div_le_self _ _).trans_lt ha) hz]
  exact congrArg some (Nat.div_add_mod' a pageSize)

include hbit

theorem compactPage_of_pos (hp : p < 2 ^ 64) (hpos : 0 < nodeOfPage p) :
    m.compactPage p =
      if pageShift ≤ h ∧ nodeOfPage p * 2 ^ (h - pageShift) < 2 ^ 31 then
        some (moveNode (nodeOffset - pageShift)
          (BitVec.ofNat 64 (nodeOfPage p * 2 ^ (h - pageShift))) (BitVec.ofNat 64 p)).toNat
      else none := by
  have hnat : (BitVec.ofNat 64 p).toNat = p := by rw [BitVec.toNat_ofNat, Nat.mod_eq_of_lt hp]
  rw [NumaMap.compactPage, if_pos hon, mapPmSegment_of_pos (hnat.symm ▸ hpos), hbit, hnat]
  split_ifs <;> rfl

/-- The number of the node is put in above the offset. -/
theorem compactPage_eq (hp : p < 2 ^ 64) (hpos : 0 < nodeOfPage p) (hshift : pageShift ≤ h)
    (hint : nodeOfPage p * 2 ^ (h - pageShift) < 2 ^ 31)
    (hoffset : pageOffset p < 2 ^ (h - pageShift)) :
    m.compactPage p = some (pageOffset p + nodeOfPage p * 2 ^ (h - pageShift)) := by
  have hnat : (BitVec.ofNat 64 p).toNat = p := by rw [BitVec.toNat_ofNat, Nat.mod_eq_of_lt hp]
  rw [compactPage_of_pos hon hbit hp hpos, if_pos ⟨hshift, hint⟩,
    toNat_moveNode (by decide) (hnat.symm ▸ hoffset) hint, hnat]
  rfl

theorem compactAddr_eq (ha : a < 2 ^ 64) (hpos : 0 < nodeOfAddr a) (hshift : pageShift ≤ h)
    (hint : nodeOfAddr a * 2 ^ (h - pageShift) < 2 ^ 31) (hoffset : addrOffset a < 2 ^ h) :
    m.compactAddr a = some (addrOffset a + nodeOfAddr a * 2 ^ h) := by
  have hp : a / pageSize < 2 ^ 64 := (Nat.div_le_self _ _).trans_lt ha
  have hpow : 2 ^ h = 2 ^ (h - pageShift) * pageSize := by
    rw [show pageSize = 2 ^ pageShift from rfl, ← Nat.pow_add, Nat.sub_add_cancel hshift]
  have hlt : pageOffset (a / pageSize) < 2 ^ (h - pageShift) := by
    rw [addrOffset_eq, hpow] at hoffset
    exact lt_of_mul_lt_mul_right ((Nat.le_add_right _ _).trans_lt hoffset) (Nat.zero_le _)
  rw [nodeOfAddr_eq] at hpos hint ⊢
  rw [NumaMap.compactAddr, compactPage_eq hon hbit hp hpos hshift hint hlt, Option.map_some,
    addrOffset_eq, hpow, Nat.add_mul, ← Nat.mul_assoc, Nat.add_right_comm]

omit hon hbit in
/-- The bounds of a segment go the same way. -/
theorem toNat_moveNode_page {s : ℕ} {x : BitVec 64} (hx : x.toNat = c + n * 2 ^ 32)
    (hc : c < 2 ^ s) (hs : 2 ^ s ≤ 2 ^ 32) (hn : n < 16) (hint : n * 2 ^ s < 2 ^ 31) :
    (moveNode (nodeOffset - pageShift) (BitVec.ofNat 64 (n * 2 ^ s)) x).toNat =
      c + n * 2 ^ s := by
  have hclear : BitField.clear (nodeOffset - pageShift) 4 x.toNat = c := by
    rw [hx]
    exact (pageOffset_of_add (hc.trans_le hs) hn).1
  rw [toNat_moveNode (by decide) (hclear.symm ▸ hc) hint, hclear]

omit hon hbit in
theorem toNat_moveNode_addr {s : ℕ} {x : BitVec 64} (hx : x.toNat = c + n * 2 ^ 44)
    (hc : c < 2 ^ s) (hs : 2 ^ s ≤ 2 ^ 44) (hn : n < 16) (hint : n * 2 ^ s < 2 ^ 31) :
    (moveNode nodeOffset (BitVec.ofNat 64 (n * 2 ^ s)) x).toNat = c + n * 2 ^ s := by
  have hclear : BitField.clear nodeOffset 4 x.toNat = c := by
    rw [hx]
    exact (addrOffset_of_add (hc.trans_le hs) hn).1
  rw [toNat_moveNode (by decide) (hclear.symm ▸ hc) hint, hclear]

/-- A shift that has no value gives the page none. -/
theorem shift_of_compactPage (hp : p < 2 ^ 64) (hpos : 0 < nodeOfPage p)
    (hq : m.compactPage p = some q) :
    pageShift ≤ h ∧ nodeOfPage p * 2 ^ (h - pageShift) < 2 ^ 31 := by
  rw [compactPage_of_pos hon hbit hp hpos] at hq
  by_contra hnot
  rw [if_neg hnot] at hq
  exact absurd hq (by simp)

/-- No page has a node afterwards: the shifted number is an `int`. -/
theorem nodeOfPage_of_compactPage (hp : p < 2 ^ 64) (hq : m.compactPage p = some q) :
    nodeOfPage q = 0 := by
  rcases Nat.eq_zero_or_pos (nodeOfPage p) with hz | hpos
  · rw [compactPage_of_zero hon hp hz] at hq
    rwa [← Option.some.inj hq]
  · obtain ⟨hshift, hint⟩ := shift_of_compactPage hon hbit hp hpos hq
    rw [compactPage_of_pos hon hbit hp hpos, if_pos ⟨hshift, hint⟩] at hq
    rw [← Option.some.inj hq, nodeOfPage, moveNode, BitVec.toNat_or, BitField.get_or, nodeMask_eq,
      BitField.toNat_and_not (by decide), BitField.get_clear, BitVec.toNat_ofNat,
      Nat.mod_eq_of_lt (hint.trans (by decide)),
      BitField.get_of_lt_two_pow (hint.trans (by decide))]
    rfl

/-- Nothing ends up below the bits of its node. -/
theorem le_compactPage (hp : p < 2 ^ 64) (hpos : 0 < nodeOfPage p)
    (hq : m.compactPage p = some q) : nodeOfPage p * 2 ^ (h - pageShift) ≤ q := by
  obtain ⟨hshift, hint⟩ := shift_of_compactPage hon hbit hp hpos hq
  rw [compactPage_of_pos hon hbit hp hpos, if_pos ⟨hshift, hint⟩] at hq
  rw [← Option.some.inj hq, moveNode, BitVec.toNat_or, BitVec.toNat_ofNat,
    Nat.mod_eq_of_lt (hint.trans (by decide))]
  exact Nat.right_le_or

/-! ### The way back -/

omit hon hbit in
theorem ofNat_field (s : ℕ) : BitVec.ofNat 64 (0xf * 2 ^ s) = nodeMask <<< s := by
  rw [← BitVec.toNat_inj, BitVec.toNat_shiftLeft, BitVec.toNat_ofNat, Nat.shiftLeft_eq]
  rfl

theorem firstWordMapping_eq (hshift : pageShift ≤ h) (hle : h ≤ 64) (page : BitVec 64) :
    firstWordMapping m page =
      if BitField.get (h - pageShift) 4 page.toNat ≠ 0 then
        (shlInt 0xf (h - pageShift)).map fun field =>
          ((page >>> (h - pageShift) &&& nodeMask) <<< 32 ||| page &&& ~~~field) <<< pageShift
      else some (page <<< pageShift) := by
  have hshr : shrUintptr page (m.highestMapBit.toNat - pageShift) =
      some (page >>> (h - pageShift)) := by
    rw [hbit, ← Int.natCast_sub hshift, shrUintptr, Int.toNat_natCast, if_pos]
    have hpage : pageShift = 12 := rfl
    exact ⟨Int.natCast_nonneg _, by omega⟩
  have hget : page >>> (h - pageShift) &&& nodeMask ≠ 0#64 ↔
      BitField.get (h - pageShift) 4 page.toNat ≠ 0 := by
    rw [ne_zero_iff_toNat, nodeMask_eq, BitField.toNat_shiftRight_and (by decide)]
  refine (if_pos hon).trans ((congrArg (Option.bind · _) hshr).trans ?_)
  rw [Option.bind_some, hbit]
  exact if_congr hget rfl rfl

/-- The number of the node is taken out and put in where it was. -/
theorem firstWordMapping_of_node (hshift : pageShift ≤ h) (hc : c < 2 ^ (h - pageShift))
    (hn : n < 16) (hpos : 0 < n) (hint : 0xf * 2 ^ (h - pageShift) < 2 ^ 31) :
    firstWordMapping m (BitVec.ofNat 64 (c + n * 2 ^ (h - pageShift))) =
      some (BitVec.ofNat 64 (c + n * 2 ^ 32) <<< pageShift) := by
  have hpage : pageShift = 12 := rfl
  have hle : h - pageShift ≤ 30 := by
    have hlt : 2 ^ (h - pageShift) < 2 ^ 31 := (Nat.le_mul_of_pos_left _ (by decide)).trans_lt hint
    exact Nat.le_of_lt_succ ((Nat.pow_lt_pow_iff_right Nat.one_lt_two).mp hlt)
  have hmul : n * 2 ^ (h - pageShift) ≤ 0xf * 2 ^ (h - pageShift) :=
    Nat.mul_le_mul_right _ (Nat.le_of_lt_succ hn)
  have hc32 : c < 2 ^ 32 := hc.trans_le (Nat.pow_le_pow_right Nat.two_pos (hle.trans (by decide)))
  have hq : (BitVec.ofNat 64 (c + n * 2 ^ (h - pageShift))).toNat =
      c + n * 2 ^ (h - pageShift) := by
    rw [BitVec.toNat_ofNat, Nat.mod_eq_of_lt]
    omega
  have hget : (BitVec.ofNat 64 (c + n * 2 ^ (h - pageShift)) >>> (h - pageShift) &&&
      nodeMask).toNat = n := by
    rw [nodeMask_eq, BitField.toNat_shiftRight_and (by decide), hq, BitField.get_add_mul hc hn]
  have hclear : (BitVec.ofNat 64 (c + n * 2 ^ (h - pageShift)) &&&
      ~~~(nodeMask <<< (h - pageShift))).toNat = c := by
    rw [nodeMask_eq, BitField.toNat_and_not (by omega), hq, BitField.clear_add_mul hc hn]
  rw [firstWordMapping_eq hon hbit hshift (by omega), hq, BitField.get_add_mul hc hn,
    if_pos hpos.ne', shlInt_sub (by decide), if_pos ⟨hshift, hint⟩, Option.map_some, ofNat_field]
  congr 2
  rw [← BitVec.toNat_inj, BitVec.or_comm, @BitField.toNat_or 64 32 n _ _ (hclear.symm ▸ hc32),
    hclear, BitVec.toNat_ofNat, Nat.mod_eq_of_lt (by omega)]
  rw [BitVec.toNat_shiftLeft, hget, Nat.shiftLeft_eq, Nat.mod_eq_of_lt (by omega)]

theorem firstWordMapping_of_zero (hshift : pageShift ≤ h) (hle : h ≤ 64) (hp : p < 2 ^ 64)
    (hz : BitField.get (h - pageShift) 4 p = 0) :
    firstWordMapping m (BitVec.ofNat 64 p) = some (BitVec.ofNat 64 p <<< pageShift) := by
  rw [firstWordMapping_eq hon hbit hshift hle, BitVec.toNat_ofNat, Nat.mod_eq_of_lt hp,
    if_neg (not_not_intro hz)]

/-- The other direction for the pages of node 0: bits that look like a node's number end up above
the offset. -/
theorem get_of_firstWordMapping (hle : h ≤ 64) (hp : p < 2 ^ 32)
    (hfirst : firstWordMapping m (BitVec.ofNat 64 p) = some (BitVec.ofNat 64 p <<< pageShift)) :
    pageShift ≤ h ∧ BitField.get (h - pageShift) 4 p = 0 := by
  have hnat : (BitVec.ofNat 64 p).toNat = p := by
    rw [BitVec.toNat_ofNat, Nat.mod_eq_of_lt (hp.trans (by decide))]
  have hshift : pageShift ≤ h := by
    by_contra hlt
    obtain ⟨x, hx, -⟩ := Option.bind_eq_some_iff.mp ((if_pos hon).symm.trans hfirst)
    rw [hbit, shrUintptr, if_neg fun hc => ?_] at hx
    · exact absurd hx (by simp)
    · have hc := hc.1
      omega
  refine ⟨hshift, ?_⟩
  by_contra hne
  rw [firstWordMapping_eq hon hbit hshift hle, hnat, if_pos hne] at hfirst
  obtain ⟨field, -, hfirst⟩ := Option.map_eq_some_iff.mp hfirst
  have hget : (BitVec.ofNat 64 p >>> (h - pageShift) &&& nodeMask).toNat =
      BitField.get (h - pageShift) 4 p := by
    rw [nodeMask_eq, BitField.toNat_shiftRight_and (by decide), hnat]
  have hgetlt := BitField.get_lt (h - pageShift) 4 p
  have hhigh : ((BitVec.ofNat 64 p >>> (h - pageShift) &&& nodeMask) <<< 32).toNat =
      BitField.get (h - pageShift) 4 p * 2 ^ 32 := by
    rw [BitVec.toNat_shiftLeft, hget, Nat.shiftLeft_eq, Nat.mod_eq_of_lt (by omega)]
  have hlow : (BitVec.ofNat 64 p &&& ~~~field).toNat < 2 ^ 32 := by
    rw [BitVec.toNat_and, hnat]
    exact Nat.and_le_left.trans_lt hp
  have heq := congrArg BitVec.toNat hfirst
  rw [BitVec.toNat_shiftLeft, BitVec.toNat_shiftLeft, hnat, Nat.shiftLeft_eq, Nat.shiftLeft_eq,
    show 2 ^ pageShift = 4096 from rfl, BitVec.or_comm, BitField.toNat_or hlow hhigh] at heq
  omega

end

/-! ### What a compaction is -/

/-- The pages of the tested-page map. -/
def IsPage (pmMap : List PmSegment) (page : ℕ) : Prop := ∃ seg ∈ pmMap, seg.Contains page

/-- A tested-page map whose segments are each in one node, and an affinity table that covers it.
These are the tables of the firmware of a machine with several nodes: the number of a node is in
four bits of the address. -/
structure NodeTables (pmMap : List PmSegment) (ranges : List MemoryAffinity) : Prop where
  length_le : pmMap.length ≤ maxMemSegments
  ordered : ∀ seg ∈ pmMap, seg.start.toNat ≤ seg.stop.toNat
  stop_le : ∀ seg ∈ pmMap, seg.stop.toNat ≤ 2 ^ 36
  oneNode : ∀ seg ∈ pmMap, ∀ p q, seg.Contains p → seg.Contains q → nodeOfPage p = nodeOfPage q
  ranges_ordered : ∀ r ∈ ranges, r.start ≤ r.stop
  ranges_lt : ∀ r ∈ ranges, r.stop < 2 ^ 64
  covered : ∀ a, IsPage pmMap (a / pageSize) → ∃ r ∈ ranges, r.Contains a

/-- The pages have been moved one to one, segment by segment and range by range, and
`first_word_mapping` knows where each of them was. A range is moved as a whole, so the piece of
memory a page belongs to has the same proximity domain before and behind the move. -/
structure IsCompaction (pmMap : List PmSegment) (ranges : List MemoryAffinity) (m : NumaMap) :
    Prop where
  defined : ∀ p, IsPage pmMap p → ∃ q, m.compactPage p = some q
  injective : ∀ p p' q, IsPage pmMap p → IsPage pmMap p' → m.compactPage p = some q →
    m.compactPage p' = some q → p = p'
  segments : List.Forall₂ (fun seg seg' =>
    ∀ q, seg'.Contains q ↔ ∃ p, seg.Contains p ∧ m.compactPage p = some q) pmMap m.pmMap
  disjoint : ∀ x ∈ pmMap.zip m.pmMap, ∀ y ∈ pmMap.zip m.pmMap,
    nodeOfPage x.1.start.toNat ≠ nodeOfPage y.1.start.toNat →
      ∀ q, x.2.Contains q → ¬y.2.Contains q
  affinity : List.Forall₂ (fun r r' => r'.proximityDomainIdx = r.proximityDomainIdx ∧
    (∀ a, r.Contains a → ∃ b, m.compactAddr a = some b) ∧
    ∀ b, r'.Contains b ↔ ∃ a, r.Contains a ∧ m.compactAddr a = some b)
      ranges m.memoryAffinityRanges
  firstWord : ∀ p q, IsPage pmMap p → m.compactPage p = some q →
    firstWordMapping m (BitVec.ofNat 64 q) = some (BitVec.ofNat 64 p <<< pageShift)

/-- The tables leave room for the number of the node at the bit `h`. The three parts are about the
pages of node 0, which do not move, and about the segments and ranges of the other nodes, whose
numbers are shifted as an `int` and so must not reach its sign. -/
structure FitsAt (h : ℕ) (pmMap : List PmSegment) (ranges : List MemoryAffinity) : Prop where
  /-- The pages of node 0 have no bits there. -/
  nodeZero : ∀ p, IsPage pmMap p → nodeOfPage p = 0 →
    pageShift ≤ h ∧ BitField.get (h - pageShift) 4 p = 0
  /-- The number of a segment's node is an `int` when it is there. -/
  segments : ∀ seg ∈ pmMap, 0 < nodeOfPage seg.start.toNat →
    pageShift ≤ h ∧ nodeOfPage seg.start.toNat * 2 ^ (h - pageShift) < 2 ^ 31
  /-- That of a range's node is, too, and the range ends in the node it begins in. -/
  affinity : ∀ r ∈ ranges, r.proximityDomainIdx ≠ 0 → 0 < nodeOfAddr r.start →
    nodeOfAddr r.start * 2 ^ h < 2 ^ 31 ∧
      (r.start < r.stop → pageShift ≤ h ∧ r.stop / 2 ^ 44 = r.start / 2 ^ 44)
  /-- The ranges that are left alone have addresses of node 0 only. -/
  others : ∀ r ∈ ranges, ¬(r.proximityDomainIdx ≠ 0 ∧ 0 < nodeOfAddr r.start) →
    ∀ a, r.Contains a → nodeOfAddr a = 0

section

variable (ht : NodeTables pmMap ranges)

include ht

theorem NodeTables.lt_of_isPage (hp : IsPage pmMap p) : p < 2 ^ 36 := by
  obtain ⟨seg, hseg, hc⟩ := hp
  exact hc.2.trans_le (ht.stop_le seg hseg)

theorem NodeTables.lt_of_contains (hr : r ∈ ranges) (ha : r.Contains a) : a < 2 ^ 64 :=
  ha.2.trans (ht.ranges_lt r hr)

/-- The node of a segment is that of its pages. -/
theorem NodeTables.nodeOfPage_start (hseg : seg ∈ pmMap) (hp : seg.Contains p) :
    nodeOfPage seg.start.toNat = nodeOfPage p :=
  ht.oneNode seg hseg _ _ ⟨le_rfl, hp.1.trans_lt hp.2⟩ hp

/-- Segments of different nodes stay disjoint if no two pages become one. -/
theorem NodeTables.disjoint
    (hinj : ∀ p p' q, IsPage pmMap p → IsPage pmMap p' → m.compactPage p = some q →
      m.compactPage p' = some q → p = p')
    (hsegs : List.Forall₂ (fun seg seg' =>
      ∀ q, seg'.Contains q ↔ ∃ p, seg.Contains p ∧ m.compactPage p = some q) pmMap m.pmMap)
    {x y : PmSegment × PmSegment} (hx : x ∈ pmMap.zip m.pmMap) (hy : y ∈ pmMap.zip m.pmMap)
    (hne : nodeOfPage x.1.start.toNat ≠ nodeOfPage y.1.start.toNat) (hqx : x.2.Contains q) :
    ¬y.2.Contains q := by
  intro hqy
  have hxm : x.1 ∈ pmMap := (List.of_mem_zip hx).1
  have hym : y.1 ∈ pmMap := (List.of_mem_zip hy).1
  obtain ⟨p, hp, hpq⟩ := (List.forall₂_zip hsegs hx q).mp hqx
  obtain ⟨p', hp', hpq'⟩ := (List.forall₂_zip hsegs hy q).mp hqy
  obtain rfl := hinj p p' q ⟨_, hxm, hp⟩ ⟨_, hym, hp'⟩ hpq hpq'
  exact hne ((ht.nodeOfPage_start hxm hp).trans (ht.nodeOfPage_start hym hp').symm)

/-- Nothing has been moved. -/
theorem isCompaction_boot : IsCompaction pmMap ranges (.boot pmMap ranges numProximityDomains) := by
  have haddr (a : ℕ) :
      (NumaMap.boot pmMap ranges numProximityDomains).compactAddr a = some a :=
    congrArg some (Nat.div_add_mod' a pageSize)
  have hinj : ∀ p p' q, IsPage pmMap p → IsPage pmMap p' → some p = some q → some p' = some q →
      p = p' := fun p p' q _ _ hq hq' => Option.some.inj (hq.trans hq'.symm)
  have hsegs : List.Forall₂ (fun seg seg' : PmSegment =>
      ∀ q, seg'.Contains q ↔ ∃ p, seg.Contains p ∧ some p = some q) pmMap pmMap :=
    List.forall₂_same.mpr fun seg _ q =>
      ⟨fun h => ⟨q, h, rfl⟩, fun ⟨p, hp, hq⟩ => Option.some.inj hq ▸ hp⟩
  refine ⟨fun p _ => ⟨p, rfl⟩, hinj, hsegs, fun x hx y hy hne q hqx =>
    ht.disjoint (m := .boot pmMap ranges numProximityDomains) hinj hsegs hx hy hne hqx, ?_, ?_⟩
  · refine List.forall₂_same.mpr fun r _ => ⟨rfl, fun a _ => ⟨a, haddr a⟩, fun b => ?_⟩
    refine ⟨fun h => ⟨b, h, haddr b⟩, ?_⟩
    rintro ⟨a, ha, hb⟩
    exact Option.some.inj ((haddr a).symm.trans hb) ▸ ha
  · intro p q _ hq
    rw [← Option.some.inj hq]
    rfl

end

/-! ### Where there is room -/

/-- The numbers from `cl` to `ch` above one base go to the same numbers above another. -/
theorem exists_image_iff {f : ℕ → Option ℕ} {d d' cl ch : ℕ}
    (hf : ∀ c, cl ≤ c → c < ch → f (c + d) = some (c + d')) (y : ℕ) :
    (cl + d' ≤ y ∧ y < ch + d') ↔ ∃ x, (cl + d ≤ x ∧ x < ch + d) ∧ f x = some y := by
  constructor
  · rintro ⟨hlo, hhi⟩
    refine ⟨y - d' + d, ⟨by omega, by omega⟩, ?_⟩
    rw [hf _ (by omega) (by omega), Nat.sub_add_cancel (by omega)]
  · rintro ⟨x, ⟨hlo, hhi⟩, hx⟩
    obtain ⟨c, rfl⟩ := Nat.exists_eq_add_of_le' (show d ≤ x by omega)
    rw [hf c (by omega) (by omega)] at hx
    obtain rfl := Option.some.inj hx
    omega

theorem le_thirty (hn : 0 < n) (hint : n * 2 ^ h < 2 ^ 31) : h ≤ 30 := by
  have hlt : 2 ^ h < 2 ^ 31 := (Nat.le_mul_of_pos_left _ hn).trans_lt hint
  exact Nat.le_of_lt_succ ((Nat.pow_lt_pow_iff_right Nat.one_lt_two).mp hlt)

theorem endOffset_lt_of_moved (hr : r ∈ ranges) (hidx : r.proximityDomainIdx ≠ 0) :
    addrOffset r.stop < 2 ^ nodeBit ranges := endOffset_lt hr hidx

/-- The addresses of a range that is moved have one node, and their offsets are below the bit. -/
theorem FitsAt.of_contains (hfits : FitsAt h pmMap ranges) (hr : r ∈ ranges)
    (hidx : r.proximityDomainIdx ≠ 0)
    (hpos : 0 < nodeOfAddr r.start) (ha : r.Contains a) :
    pageShift ≤ h ∧ nodeOfAddr a = nodeOfAddr r.start ∧ r.stop / 2 ^ 44 = r.start / 2 ^ 44 ∧
      addrOffset a + 1 ≤ addrOffset r.stop := by
  obtain ⟨-, hin⟩ := hfits.affinity r hr hidx hpos
  obtain ⟨hshift, hnode⟩ := hin (ha.1.trans_lt ha.2)
  have hdiv : a / 2 ^ 44 = r.start / 2 ^ 44 := by
    obtain ⟨hlo, hhi⟩ := ha
    omega
  refine ⟨hshift, ?_, hnode, ?_⟩
  · change a / 2 ^ 44 % 2 ^ 4 = r.start / 2 ^ 44 % 2 ^ 4
    rw [hdiv]
  · change a / 2 ^ 48 * 2 ^ 48 + a % 2 ^ 44 + 1 ≤ r.stop / 2 ^ 48 * 2 ^ 48 + r.stop % 2 ^ 44
    have hhi := ha.2
    omega

section

variable (ht : NodeTables pmMap ranges) (hfits : FitsAt (nodeBit ranges) pmMap ranges)

include ht hfits

/-- A page of another node than 0 is in ranges that are moved. -/
theorem FitsAt.of_isPage (hp : IsPage pmMap p) (hpos : 0 < nodeOfPage p) :
    pageShift ≤ nodeBit ranges ∧ nodeOfPage p * 2 ^ nodeBit ranges < 2 ^ 31 ∧
      pageOffset p + 1 < 2 ^ (nodeBit ranges - pageShift) := by
  have hdiv : (p * pageSize + (pageSize - 1)) / pageSize = p := by
    change (p * 4096 + 4095) / 4096 = p
    omega
  have hmod : (p * pageSize + (pageSize - 1)) % pageSize = 4095 := by
    change (p * 4096 + 4095) % 4096 = 4095
    omega
  obtain ⟨r, hr, ha⟩ := ht.covered (p * pageSize + (pageSize - 1)) (hdiv.symm ▸ hp)
  have hnode : nodeOfAddr (p * pageSize + (pageSize - 1)) = nodeOfPage p := by
    rw [nodeOfAddr_eq, hdiv]
  obtain ⟨hidx, hstart⟩ : r.proximityDomainIdx ≠ 0 ∧ 0 < nodeOfAddr r.start := by
    by_contra hnot
    exact hpos.ne' (hnode.symm.trans (hfits.others r hr hnot _ ha))
  obtain ⟨hshift, heq, -, hle⟩ := hfits.of_contains hr hidx hstart ha
  refine ⟨hshift, ?_, ?_⟩
  · rw [← hnode, heq]
    exact (hfits.affinity r hr hidx hstart).1
  · have hpow : 2 ^ nodeBit ranges = 2 ^ (nodeBit ranges - pageShift) * 4096 := by
      rw [show 4096 = 2 ^ pageShift from rfl, ← Nat.pow_add, Nat.sub_add_cancel hshift]
    have hlt := hle.trans_lt (endOffset_lt_of_moved hr hidx)
    rw [addrOffset_eq, hdiv, hmod, hpow] at hlt
    change pageOffset p * 4096 + 4095 + 1 < _ at hlt
    omega

theorem FitsAt.lt_of_isPage (hp : IsPage pmMap p) (hpos : 0 < nodeOfPage p) :
    nodeOfPage p * 2 ^ (nodeBit ranges - pageShift) < 2 ^ 31 :=
  (Nat.mul_le_mul_left _ (Nat.pow_le_pow_right Nat.two_pos (Nat.sub_le _ _))).trans_lt
    (hfits.of_isPage ht hp hpos).2.1

section

variable (hm : Mapped pmMap ranges numProximityDomains m)
  (hbit : m.highestMapBit.toNat = nodeBit ranges)

include hm hbit

theorem FitsAt.compactPage_eq (hp : IsPage pmMap p) (hpos : 0 < nodeOfPage p) :
    m.compactPage p =
      some (pageOffset p + nodeOfPage p * 2 ^ (nodeBit ranges - pageShift)) :=
  LoongArch.compactPage_eq hm.mapNumaMemoryRange_eq hbit
    ((ht.lt_of_isPage hp).trans (by decide)) hpos (hfits.of_isPage ht hp hpos).1
    (hfits.lt_of_isPage ht hp hpos)
    ((Nat.lt_succ_self _).trans (hfits.of_isPage ht hp hpos).2.2)

/-- `first_word_mapping` knows where a page was. -/
theorem FitsAt.firstWord (hle : nodeBit ranges ≤ 64) (hp : IsPage pmMap p)
    (hq : m.compactPage p = some q) :
    firstWordMapping m (BitVec.ofNat 64 q) = some (BitVec.ofNat 64 p <<< pageShift) := by
  have hlt : p < 2 ^ 64 := (ht.lt_of_isPage hp).trans (by decide)
  rcases Nat.eq_zero_or_pos (nodeOfPage p) with hz | hpos
  · rw [compactPage_of_zero hm.mapNumaMemoryRange_eq hlt hz] at hq
    obtain ⟨hshift, hget⟩ := hfits.nodeZero p hp hz
    rw [← Option.some.inj hq]
    exact firstWordMapping_of_zero hm.mapNumaMemoryRange_eq hbit hshift hle hlt hget
  · obtain ⟨hshift, hint, hoffset⟩ := hfits.of_isPage ht hp hpos
    have h30 := le_thirty hpos hint
    have hpow : 2 ^ (nodeBit ranges - pageShift) ≤ 2 ^ 18 :=
      Nat.pow_le_pow_right Nat.two_pos (Nat.sub_le_sub_right h30 pageShift)
    rw [hfits.compactPage_eq ht hm hbit hp hpos] at hq
    rw [← Option.some.inj hq, firstWordMapping_of_node hm.mapNumaMemoryRange_eq hbit hshift
      ((Nat.lt_succ_self _).trans hoffset) (nodeOfPage_lt p) hpos (by omega), pageOffset_add]

theorem FitsAt.injective (hle : nodeBit ranges ≤ 64) {p' : ℕ} (hp : IsPage pmMap p)
    (hp' : IsPage pmMap p') (hq : m.compactPage p = some q) (hq' : m.compactPage p' = some q) :
    p = p' := by
  have heq := (hfits.firstWord ht hm hbit hle hp hq).symm.trans
    (hfits.firstWord ht hm hbit hle hp' hq')
  have heq := congrArg BitVec.toNat (Option.some.inj heq)
  have hlt := ht.lt_of_isPage hp
  have hlt' := ht.lt_of_isPage hp'
  rw [BitVec.toNat_shiftLeft, BitVec.toNat_shiftLeft, BitVec.toNat_ofNat, BitVec.toNat_ofNat,
    Nat.shiftLeft_eq, Nat.shiftLeft_eq, show 2 ^ pageShift = 4096 from rfl] at heq
  omega

/-- A segment's pages go to the pages of the new segment. -/
theorem FitsAt.contains_iff (hseg : seg ∈ pmMap)
    (hseg' : mapPmSegment (BitVec.ofNat 8 (nodeBit ranges)) seg = some seg') (q : ℕ) :
    seg'.Contains q ↔ ∃ p, seg.Contains p ∧ m.compactPage p = some q := by
  rw [← hm.highestMapBit_eq] at hseg'
  have hpage {p : ℕ} (hp : seg.Contains p) : IsPage pmMap p := ⟨seg, hseg, hp⟩
  rcases Nat.eq_zero_or_pos (nodeOfPage seg.start.toNat) with hz | hpos
  · -- The pages of node 0 stay.
    have hstay {p : ℕ} (hp : seg.Contains p) : m.compactPage p = some p :=
      compactPage_of_zero hm.mapNumaMemoryRange_eq ((ht.lt_of_isPage (hpage hp)).trans (by decide))
        ((ht.nodeOfPage_start hseg hp).symm.trans hz)
    rw [mapPmSegment_of_zero hz] at hseg'
    obtain rfl := Option.some.inj hseg'
    refine ⟨fun hq => ⟨q, hq, hstay hq⟩, ?_⟩
    rintro ⟨p, hp, hq⟩
    exact Option.some.inj ((hstay hp).symm.trans hq) ▸ hp
  rw [mapPmSegment_of_pos hpos, hbit, if_pos (hfits.segments seg hseg hpos)] at hseg'
  obtain rfl := Option.some.inj hseg'
  rcases (ht.ordered seg hseg).eq_or_lt with hempty | hlt
  · rw [BitVec.toNat_inj.mp hempty]
    refine iff_of_false (fun hq => lt_irrefl _ (hq.1.trans_lt hq.2)) ?_
    rintro ⟨p, hp, -⟩
    exact absurd (hp.1.trans_lt hp.2) hempty.not_lt
  -- The last page tells that the end is in the same node.
  have hlast : seg.Contains (seg.stop.toNat - 1) := ⟨by omega, by omega⟩
  have hnode := ht.nodeOfPage_start hseg hlast
  obtain ⟨hshift, hint, hoffset⟩ := hfits.of_isPage ht (hpage hlast) (hnode ▸ hpos)
  have hpow : 2 ^ (nodeBit ranges - pageShift) ≤ 2 ^ 32 :=
    Nat.pow_le_pow_right Nat.two_pos ((Nat.sub_le _ _).trans
      ((le_thirty (hnode ▸ hpos) hint).trans (by decide)))
  have hstart : pageOffset seg.start.toNat + nodeOfPage seg.start.toNat * 2 ^ 32 =
      seg.start.toNat := pageOffset_add _
  have hstop : pageOffset (seg.stop.toNat - 1) + 1 + nodeOfPage seg.start.toNat * 2 ^ 32 =
      seg.stop.toNat := by
    have hadd := pageOffset_add (seg.stop.toNat - 1)
    rw [← hnode] at hadd
    omega
  have hmoved := (hfits.segments seg hseg hpos).2
  have hlt16 := nodeOfPage_lt seg.start.toNat
  have hle : pageOffset seg.start.toNat < pageOffset (seg.stop.toNat - 1) + 1 := by omega
  have hmove : ∀ c, pageOffset seg.start.toNat ≤ c → c < pageOffset (seg.stop.toNat - 1) + 1 →
      m.compactPage (c + nodeOfPage seg.start.toNat * 2 ^ 32) =
        some (c + nodeOfPage seg.start.toNat * 2 ^ (nodeBit ranges - pageShift)) := by
    intro c hlo hhi
    obtain ⟨hc, hn⟩ := pageOffset_of_add ((hhi.trans hoffset).trans_le hpow) hlt16
    have hin : seg.Contains (c + nodeOfPage seg.start.toNat * 2 ^ 32) := ⟨by omega, by omega⟩
    rw [hfits.compactPage_eq ht hm hbit (hpage hin) (hn.symm ▸ hpos), hc, hn]
  have himage := exists_image_iff hmove q
  rw [hstart, hstop] at himage
  change _ ≤ q ∧ q < _ ↔ _
  rw [toNat_moveNode_page hstart.symm (hle.trans hoffset) hpow hlt16 hmoved,
    toNat_moveNode_page hstop.symm hoffset hpow hlt16 hmoved]
  exact himage

/-- A range's addresses go to the addresses of the new range. -/
theorem FitsAt.affinity_iff (hr : r ∈ ranges)
    (hr' : mapAffinityRange (BitVec.ofNat 8 (nodeBit ranges)) r = some r') :
    r'.proximityDomainIdx = r.proximityDomainIdx ∧
      (∀ a, r.Contains a → ∃ b, m.compactAddr a = some b) ∧
      ∀ b, r'.Contains b ↔ ∃ a, r.Contains a ∧ m.compactAddr a = some b := by
  rw [← hm.highestMapBit_eq] at hr'
  have hstop64 := ht.ranges_lt r hr
  have hstart64 : r.start < 2 ^ 64 := (ht.ranges_ordered r hr).trans_lt hstop64
  by_cases hcond : r.proximityDomainIdx ≠ 0 ∧ 0 < nodeOfAddr r.start
  swap
  · have hstay {a : ℕ} (ha : r.Contains a) : m.compactAddr a = some a :=
      compactAddr_of_zero hm.mapNumaMemoryRange_eq (ht.lt_of_contains hr ha)
        (hfits.others r hr hcond a ha)
    rw [mapAffinityRange_of_not hstart64 hcond] at hr'
    obtain rfl := Option.some.inj hr'
    refine ⟨rfl, fun a ha => ⟨a, hstay ha⟩, fun b => ⟨fun hb => ⟨b, hb, hstay hb⟩, ?_⟩⟩
    rintro ⟨a, ha, hb⟩
    exact Option.some.inj ((hstay ha).symm.trans hb) ▸ ha
  obtain ⟨hidx, hpos⟩ := hcond
  have hint := (hfits.affinity r hr hidx hpos).1
  rw [mapAffinityRange_of_pos hstart64 hidx hpos, hbit, if_pos hint] at hr'
  obtain rfl := Option.some.inj hr'
  refine ⟨rfl, ?_⟩
  rcases (ht.ranges_ordered r hr).eq_or_lt with hempty | hlt
  · rw [hempty]
    refine ⟨fun a ha => absurd (ha.1.trans_lt ha.2) hempty.not_lt, fun b => ?_⟩
    refine iff_of_false (fun hb => lt_irrefl _ (hb.1.trans_lt hb.2)) ?_
    rintro ⟨a, ha, -⟩
    exact absurd (ha.1.trans_lt ha.2) hempty.not_lt
  -- The end has the node of the start, so that its offset is the one that is below the bit.
  obtain ⟨hshift, -, hdiv, hle⟩ := hfits.of_contains hr hidx hpos ⟨le_rfl, hlt⟩
  have hoffset := endOffset_lt_of_moved hr hidx
  have hpow : 2 ^ nodeBit ranges ≤ 2 ^ 44 :=
    Nat.pow_le_pow_right Nat.two_pos ((le_thirty hpos hint).trans (by decide))
  have hnode : nodeOfAddr r.stop = nodeOfAddr r.start := congrArg (· % 2 ^ 4) hdiv
  have hstart := addrOffset_add r.start
  have hstop := addrOffset_add r.stop
  rw [hnode] at hstop
  have hlt16 : nodeOfAddr r.start < 16 := BitField.get_lt _ _ _
  have hint' : nodeOfAddr r.start * 2 ^ (nodeBit ranges - pageShift) < 2 ^ 31 :=
    (Nat.mul_le_mul_left _ (Nat.pow_le_pow_right Nat.two_pos (Nat.sub_le _ _))).trans_lt hint
  have hmove : ∀ c, addrOffset r.start ≤ c → c < addrOffset r.stop →
      m.compactAddr (c + nodeOfAddr r.start * 2 ^ 44) =
        some (c + nodeOfAddr r.start * 2 ^ nodeBit ranges) := by
    intro c hlo hhi
    obtain ⟨hc, hn⟩ := addrOffset_of_add ((hhi.trans hoffset).trans_le hpow) hlt16
    rw [compactAddr_eq hm.mapNumaMemoryRange_eq hbit (by omega) (hn.symm ▸ hpos) hshift
      (hn.symm ▸ hint') (hc.symm ▸ hhi.trans hoffset), hc, hn]
  have himage := exists_image_iff hmove
  rw [hstart, hstop] at himage
  refine ⟨fun a ha => ?_, fun b => ?_⟩
  · obtain ⟨hlo, hhi⟩ := ha
    obtain ⟨c, rfl⟩ := Nat.exists_eq_add_of_le' (show nodeOfAddr r.start * 2 ^ 44 ≤ a by omega)
    exact ⟨_, hmove c (by omega) (by omega)⟩
  · change _ ≤ b ∧ b < _ ↔ _
    have hstart' : (BitVec.ofNat 64 r.start).toNat =
        addrOffset r.start + nodeOfAddr r.start * 2 ^ 44 := by
      rw [BitVec.toNat_ofNat, Nat.mod_eq_of_lt hstart64, hstart]
    have hstop' : (BitVec.ofNat 64 r.stop).toNat =
        addrOffset r.stop + nodeOfAddr r.start * 2 ^ 44 := by
      rw [BitVec.toNat_ofNat, Nat.mod_eq_of_lt hstop64, hstop]
    rw [toNat_moveNode_addr hstart' (by omega) hpow hlt16 hint,
      toNat_moveNode_addr hstop' hoffset hpow hlt16 hint]
    exact himage b

/-- Where there is room, the tables have been compacted. -/
theorem FitsAt.isCompaction (hle : nodeBit ranges ≤ 64) : IsCompaction pmMap ranges m := by
  have hinj : ∀ p p' q, IsPage pmMap p → IsPage pmMap p' → m.compactPage p = some q →
      m.compactPage p' = some q → p = p' :=
    fun p p' q hp hp' hq hq' => hfits.injective ht hm hbit hle hp hp' hq hq'
  have hsegs : List.Forall₂ (fun seg seg' =>
      ∀ q, seg'.Contains q ↔ ∃ p, seg.Contains p ∧ m.compactPage p = some q) pmMap m.pmMap :=
    ((List.forall₂_and_left pmMap m.pmMap).mpr ⟨fun _ hseg => hseg, hm.pmMap_eq⟩).imp
      fun seg seg' h => hfits.contains_iff ht hm hbit h.1 h.2
  refine ⟨fun p hp => ?_, hinj, hsegs, fun x hx y hy hne q hqx =>
    ht.disjoint hinj hsegs hx hy hne hqx, ?_, fun p q => hfits.firstWord ht hm hbit hle⟩
  · rcases Nat.eq_zero_or_pos (nodeOfPage p) with hz | hpos
    · exact ⟨p, compactPage_of_zero hm.mapNumaMemoryRange_eq
        ((ht.lt_of_isPage hp).trans (by decide)) hz⟩
    · exact ⟨_, hfits.compactPage_eq ht hm hbit hp hpos⟩
  · exact ((List.forall₂_and_left ranges m.memoryAffinityRanges).mpr
      ⟨fun _ hr => hr, hm.ranges_eq⟩).imp
        fun r r' h => hfits.affinity_iff ht hm hbit h.1 h.2

end

end

/-! ### Where there is none -/

section

variable (ht : NodeTables pmMap ranges) (hm : Mapped pmMap ranges numProximityDomains m)
  (hbit : m.highestMapBit.toNat = nodeBit ranges)

include ht hm hbit

/-- An address that goes somewhere has a node's number that can be shifted. -/
theorem shift_of_compactAddr (hr : r ∈ ranges) (ha : r.Contains a) (hpos : 0 < nodeOfAddr a)
    (hb : m.compactAddr a = some b) :
    pageShift ≤ nodeBit ranges ∧
      nodeOfAddr a * 2 ^ (nodeBit ranges - pageShift) < 2 ^ 31 ∧
      nodeOfAddr a * 2 ^ nodeBit ranges ≤ b := by
  obtain ⟨q, hq, rfl⟩ := Option.map_eq_some_iff.mp hb
  have hlt : a / pageSize < 2 ^ 64 := (Nat.div_le_self _ _).trans_lt (ht.lt_of_contains hr ha)
  rw [nodeOfAddr_eq] at hpos ⊢
  obtain ⟨hshift, hint⟩ :=
    shift_of_compactPage hm.mapNumaMemoryRange_eq hbit hlt hpos hq
  refine ⟨hshift, hint, ?_⟩
  have hle := Nat.mul_le_mul_right pageSize
    (le_compactPage hm.mapNumaMemoryRange_eq hbit hlt hpos hq)
  rw [Nat.mul_assoc, show pageSize = 2 ^ pageShift from rfl, ← Nat.pow_add,
    Nat.sub_add_cancel hshift] at hle
  exact hle.trans (Nat.le_add_right _ _)

/-- The new range's end tells that the old one ended in the node it began in: the last address
would be behind it otherwise, or the first one. -/
theorem Mapped.ends_in_node (hr : r ∈ ranges) (hidx : r.proximityDomainIdx ≠ 0)
    (hpos : 0 < nodeOfAddr r.start) (hlt : r.start < r.stop)
    (hint : nodeOfAddr r.start * 2 ^ nodeBit ranges < 2 ^ 31)
    (hstop : r'.stop = addrOffset r.stop + nodeOfAddr r.start * 2 ^ nodeBit ranges)
    (hdef : ∀ a, r.Contains a → ∃ b, m.compactAddr a = some b)
    (himage : ∀ a b, r.Contains a → m.compactAddr a = some b → b < r'.stop) :
    pageShift ≤ nodeBit ranges ∧ r.stop / 2 ^ 44 = r.start / 2 ^ 44 := by
  have hin : r.Contains r.start := ⟨le_rfl, hlt⟩
  obtain ⟨b₀, hb₀⟩ := hdef _ hin
  obtain ⟨hshift, -, hle₀⟩ := shift_of_compactAddr ht hm hbit hr hin hpos hb₀
  refine ⟨hshift, ?_⟩
  by_contra hne
  have hoffset : addrOffset r.stop < 2 ^ nodeBit ranges := endOffset_lt_of_moved hr hidx
  have hpow : 2 ^ nodeBit ranges ≤ 2 ^ 30 :=
    Nat.pow_le_pow_right Nat.two_pos (le_thirty hpos hint)
  have hlast : r.Contains (r.stop - 1) := ⟨by omega, by omega⟩
  have h₀ := himage _ _ hin hb₀
  rw [hstop] at h₀ himage
  have hvstop : addrOffset r.stop = r.stop / 2 ^ 48 * 2 ^ 48 + r.stop % 2 ^ 44 := rfl
  have hnstart : nodeOfAddr r.start = r.start / 2 ^ 44 % 2 ^ 4 := rfl
  have hv : 0 < addrOffset r.stop := by omega
  -- The last address has the node of the end, which is a later one.
  have hdecomp : r.stop - 1 = (addrOffset r.stop - 1) + r.stop / 2 ^ 44 * 2 ^ 44 := by omega
  obtain ⟨hc, hn⟩ := addrOffset_of_add (c := addrOffset r.stop - 1) (n := r.stop / 2 ^ 44)
    (by omega) (by omega)
  rw [← hdecomp] at hc hn
  have hlater : nodeOfAddr r.start + 1 ≤ nodeOfAddr (r.stop - 1) := by
    rw [hn]
    omega
  obtain ⟨b, hb⟩ := hdef _ hlast
  have hposLast : 0 < nodeOfAddr (r.stop - 1) := by omega
  obtain ⟨-, hintLast, -⟩ := shift_of_compactAddr ht hm hbit hr hlast hposLast hb
  have hbval := compactAddr_eq hm.mapNumaMemoryRange_eq hbit (ht.lt_of_contains hr hlast) hposLast
    hshift hintLast (by omega)
  have hb' := himage _ _ hlast hbval
  have hmul := Nat.mul_le_mul_right (2 ^ nodeBit ranges) hlater
  rw [Nat.succ_mul] at hmul
  have hone := Nat.one_le_two_pow (n := nodeBit ranges)
  omega

/-- A range that is left alone has no address of a node that would be moved. -/
theorem Mapped.node_zero (hr : r ∈ ranges) (himage : r.Contains a → ∃ a', r.Contains a' ∧
      m.compactAddr a' = some a) (ha : r.Contains a) : nodeOfAddr a = 0 := by
  obtain ⟨b, hb, hab⟩ := himage ha
  obtain ⟨q, hq, hqa⟩ := Option.map_eq_some_iff.mp hab
  have hlt : b / pageSize < 2 ^ 64 := (Nat.div_le_self _ _).trans_lt (ht.lt_of_contains hr hb)
  have hdiv : a / pageSize = q := by
    rw [← hqa]
    change (q * 4096 + b % 4096) / 4096 = q
    omega
  rw [nodeOfAddr_eq, hdiv]
  exact nodeOfPage_of_compactPage hm.mapNumaMemoryRange_eq hbit hlt hq

/-- What has been compacted had room. -/
theorem IsCompaction.fitsAt (hc : IsCompaction pmMap ranges m) (hle : nodeBit ranges ≤ 64) :
    FitsAt (nodeBit ranges) pmMap ranges := by
  have hstart (r : MemoryAffinity) (hr : r ∈ ranges) : r.start < 2 ^ 64 :=
    (ht.ranges_ordered r hr).trans_lt (ht.ranges_lt r hr)
  have hrange (r : MemoryAffinity) (hr : r ∈ ranges) :
      ∃ r', mapAffinityRange m.highestMapBit r = some r' ∧
        (∀ a, r.Contains a → ∃ b, m.compactAddr a = some b) ∧
        ∀ b, r'.Contains b ↔ ∃ a, r.Contains a ∧ m.compactAddr a = some b := by
    obtain ⟨i, hi, rfl⟩ := List.mem_iff_getElem.mp hr
    obtain ⟨hlen, hget⟩ := List.forall₂_iff_get.mp hm.ranges_eq
    have haff := (List.forall₂_iff_get.mp hc.affinity).2 i hi (hlen ▸ hi)
    rw [hm.highestMapBit_eq]
    exact ⟨_, hget i hi (hlen ▸ hi), haff.2⟩
  refine ⟨fun p hp hz => ?_, fun seg hseg hpos => ?_, fun r hr hidx hpos => ?_,
    fun r hr hcond a ha => ?_⟩
  · have hlt := ht.lt_of_isPage hp
    have hp32 : p < 2 ^ 32 := by
      change p / 2 ^ 32 % 2 ^ 4 = 0 at hz
      omega
    have hstay := compactPage_of_zero hm.mapNumaMemoryRange_eq (hlt.trans (by decide)) hz
    exact get_of_firstWordMapping hm.mapNumaMemoryRange_eq hbit hle hp32 (hc.firstWord p p hp hstay)
  · by_contra hnot
    obtain ⟨i, hi, rfl⟩ := List.mem_iff_getElem.mp hseg
    obtain ⟨hlen, hget⟩ := List.forall₂_iff_get.mp hm.pmMap_eq
    have hsome := hget i hi (hlen ▸ hi)
    rw [← hm.highestMapBit_eq, List.get_eq_getElem, mapPmSegment_of_pos hpos, hbit,
      if_neg hnot] at hsome
    exact absurd hsome (by simp)
  · obtain ⟨r', hr', hdef, himage⟩ := hrange r hr
    rw [mapAffinityRange_of_pos (hstart r hr) hidx hpos, hbit] at hr'
    split_ifs at hr' with hint
    refine ⟨hint, fun hlt =>
      Mapped.ends_in_node ht hm hbit hr hidx hpos hlt hint ?_ hdef fun a b ha hb =>
      ((himage b).mpr ⟨a, ha, hb⟩).2⟩
    obtain rfl := Option.some.inj hr'
    have hclear : BitField.clear nodeOffset 4 (BitVec.ofNat 64 r.stop).toNat =
        addrOffset r.stop := by
      rw [BitVec.toNat_ofNat, Nat.mod_eq_of_lt (ht.ranges_lt r hr), addrOffset]
    exact (toNat_moveNode (by decide) (hclear.symm ▸ endOffset_lt_of_moved hr hidx) hint).trans
      (hclear ▸ rfl)
  · obtain ⟨r', hr', -, himage⟩ := hrange r hr
    rw [mapAffinityRange_of_not (hstart r hr) hcond] at hr'
    obtain rfl := Option.some.inj hr'
    exact Mapped.node_zero ht hm hbit hr (himage a).mp ha

end

theorem nodeBit_le (hr : ∀ r ∈ ranges, r.stop < 2 ^ 64) : nodeBit ranges ≤ 64 := by
  have hlt := bitCount_lt (largestOffset_lt hr)
  rw [bitCount] at hlt
  rw [nodeBit]
  split_ifs at hlt with hz
  · rw [hz]
    decide
  · exact hlt

theorem Mapped.highestMapBit_toNat (hm : Mapped pmMap ranges numProximityDomains m)
    (hle : nodeBit ranges ≤ 64) : m.highestMapBit.toNat = nodeBit ranges := by
  rw [hm.highestMapBit_eq, BitVec.toNat_ofNat, Nat.mod_eq_of_lt (by omega)]

/-- Where there is room, the function returns. -/
theorem FitsAt.exists_mapped (ht : NodeTables pmMap ranges)
    (hfits : FitsAt (nodeBit ranges) pmMap ranges) (numProximityDomains : ℕ) :
    ∃ m, Mapped pmMap ranges numProximityDomains m := by
  have hbit : (BitVec.ofNat 8 (nodeBit ranges)).toNat = nodeBit ranges := by
    have hle := nodeBit_le ht.ranges_lt
    rw [BitVec.toNat_ofNat, Nat.mod_eq_of_lt (by omega)]
  obtain ⟨pmMap', hpm⟩ := exists_mapM (f := mapPmSegment (BitVec.ofNat 8 (nodeBit ranges)))
    (l := pmMap) fun seg hseg => by
      rcases Nat.eq_zero_or_pos (nodeOfPage seg.start.toNat) with hz | hpos
      · exact ⟨_, mapPmSegment_of_zero hz⟩
      · rw [mapPmSegment_of_pos hpos, hbit, if_pos (hfits.segments seg hseg hpos)]
        exact ⟨_, rfl⟩
  obtain ⟨ranges', hranges⟩ := exists_mapM
    (f := mapAffinityRange (BitVec.ofNat 8 (nodeBit ranges))) (l := ranges) fun r hr => by
      have hstart := (ht.ranges_ordered r hr).trans_lt (ht.ranges_lt r hr)
      by_cases hcond : r.proximityDomainIdx ≠ 0 ∧ 0 < nodeOfAddr r.start
      · rw [mapAffinityRange_of_pos hstart hcond.1 hcond.2, hbit,
          if_pos (hfits.affinity r hr hcond.1 hcond.2).1]
        exact ⟨_, rfl⟩
      · exact ⟨_, mapAffinityRange_of_not hstart hcond⟩
  exact ⟨⟨pmMap', ranges', numProximityDomains, true, BitVec.ofNat 8 (nodeBit ranges)⟩, hpm,
    hranges,
    rfl, rfl, rfl⟩

/-- **Compaction.** The tables are compacted in a way that can be undone if and only if there is
nothing to do, or the ranges can be counted and leave room for the number of the node above the
largest offset.

The code counts the ranges with eight bits, so it comes to its end for 255 of them at most; this
is why the left side begins with fuel. The largest offset is taken over the domains but the first,
although the pages of the first one stay where they are and may have bits there. -/
theorem checkIfNeedsToMap_isCompaction_iff (ht : NodeTables pmMap ranges)
    (numProximityDomains : ℕ) :
    (∃ fuel m, checkIfNeedsToMap fuel (.boot pmMap ranges numProximityDomains) = some m ∧
      IsCompaction pmMap ranges m) ↔
      numProximityDomains = 0 ∨
        (ranges.length ≤ 255 ∧
          (largestOffset ranges = 0 ∨ FitsAt (nodeBit ranges) pmMap ranges)) := by
  have hle := nodeBit_le ht.ranges_lt
  have hiff (m : NumaMap) :
      (∃ fuel, checkIfNeedsToMap fuel (.boot pmMap ranges numProximityDomains) = some m) ↔ _ :=
    exists_checkIfNeedsToMap_iff ht.length_le ht.ranges_lt
  constructor
  · rintro ⟨fuel, m, hrun, hc⟩
    rcases (hiff m).mp ⟨fuel, hrun⟩ with ⟨hz, -⟩ | ⟨-, hlen, ⟨h0, -⟩ | ⟨-, hm⟩⟩
    · exact .inl hz
    · exact .inr ⟨hlen, .inl h0⟩
    · exact .inr ⟨hlen, .inr (hc.fitsAt ht hm (hm.highestMapBit_toNat hle) hle)⟩
  · intro hcond
    by_cases hz : numProximityDomains = 0
    · obtain ⟨fuel, hrun⟩ := (hiff _).mpr (.inl ⟨hz, rfl⟩)
      exact ⟨fuel, _, hrun, isCompaction_boot ht⟩
    obtain ⟨hlen, hroom⟩ := hcond.resolve_left hz
    by_cases h0 : largestOffset ranges = 0
    · obtain ⟨fuel, hrun⟩ := (hiff _).mpr (.inr ⟨hz, hlen, .inl ⟨h0, rfl⟩⟩)
      exact ⟨fuel, _, hrun, isCompaction_boot ht⟩
    · have hfits := hroom.resolve_left h0
      obtain ⟨m, hm⟩ := hfits.exists_mapped ht numProximityDomains
      obtain ⟨fuel, hrun⟩ := (hiff m).mpr (.inr ⟨hz, hlen, .inr ⟨Nat.pos_of_ne_zero h0, hm⟩⟩)
      exact ⟨fuel, m, hrun, hfits.isCompaction ht hm (hm.highestMapBit_toNat hle) hle⟩

/-! ### Two nodes -/

/-- Node 0 up to a page, and 256MB of node 1. -/
def twoNodesPmMap (pages : ℕ) : List PmSegment :=
  [⟨0x100#64, BitVec.ofNat 64 pages⟩, ⟨0x100000000#64, 0x100010000#64⟩]

/-- The affinity table for these. -/
def twoNodesRanges (pages : ℕ) : List MemoryAffinity :=
  [⟨0, 0, pages * 4096⟩, ⟨1, 0x100000000000, 0x100010000000⟩]

theorem isPage_twoNodes {pages : ℕ} (hpages : pages ≤ 2 ^ 20) :
    IsPage (twoNodesPmMap pages) p ↔
      (0x100 ≤ p ∧ p < pages) ∨ (0x100000000 ≤ p ∧ p < 0x100010000) := by
  simp only [IsPage, twoNodesPmMap, List.mem_cons, List.not_mem_nil, or_false, exists_eq_or_imp,
    exists_eq_left, PmSegment.Contains, BitVec.toNat_ofNat]
  rw [Nat.mod_eq_of_lt (show pages < 2 ^ 64 by omega)]

theorem nodeTables_twoNodes {pages : ℕ} (hlo : 0x100 ≤ pages) (hpages : pages ≤ 2 ^ 20) :
    NodeTables (twoNodesPmMap pages) (twoNodesRanges pages) := by
  have hnat : (BitVec.ofNat 64 pages).toNat = pages := by
    rw [BitVec.toNat_ofNat, Nat.mod_eq_of_lt (by omega)]
  refine ⟨Nat.le_of_ble_eq_true rfl, ?_, ?_, ?_, ?_, ?_, fun a ha => ?_⟩
  · rw [twoNodesPmMap, List.forall_mem_cons, List.forall_mem_singleton, hnat]
    exact ⟨hlo, by decide⟩
  · rw [twoNodesPmMap, List.forall_mem_cons, List.forall_mem_singleton, hnat]
    exact ⟨by omega, by decide⟩
  · rw [twoNodesPmMap, List.forall_mem_cons, List.forall_mem_singleton]
    refine ⟨?_, ?_⟩
    · rintro p q ⟨-, hp⟩ ⟨-, hq⟩
      rw [hnat] at hp hq
      change p / 2 ^ 32 % 2 ^ 4 = q / 2 ^ 32 % 2 ^ 4
      omega
    · rintro p q ⟨hp, hp'⟩ ⟨hq, hq'⟩
      change 0x100000000 ≤ p at hp
      change p < 0x100010000 at hp'
      change 0x100000000 ≤ q at hq
      change q < 0x100010000 at hq'
      change p / 2 ^ 32 % 2 ^ 4 = q / 2 ^ 32 % 2 ^ 4
      omega
  · rw [twoNodesRanges, List.forall_mem_cons, List.forall_mem_singleton]
    exact ⟨Nat.zero_le _, by decide⟩
  · rw [twoNodesRanges, List.forall_mem_cons, List.forall_mem_singleton]
    exact ⟨show pages * 4096 < 2 ^ 64 by omega, by decide⟩
  · rcases (isPage_twoNodes hpages).mp ha with ⟨-, hhi⟩ | ⟨hlo, hhi⟩
    · refine ⟨_, List.mem_cons_self, Nat.zero_le _, ?_⟩
      change a / 4096 < pages at hhi
      change a < pages * 4096
      omega
    · refine ⟨_, List.mem_cons_of_mem _ List.mem_cons_self, ?_⟩
      change 0x100000000 ≤ a / 4096 at hlo
      change a / 4096 < 0x100010000 at hhi
      change 0x100000000000 ≤ a ∧ a < 0x100010000000
      omega

/-- With 512MB in node 0 there is room. -/
theorem checkIfNeedsToMap_isCompaction_smallNode :
    ∃ fuel m, checkIfNeedsToMap fuel
      (.boot (twoNodesPmMap 0x20000) (twoNodesRanges 0x20000) 2) = some m ∧
        IsCompaction (twoNodesPmMap 0x20000) (twoNodesRanges 0x20000) m := by
  refine (checkIfNeedsToMap_isCompaction_iff (nodeTables_twoNodes (by decide) (by decide)) 2).mpr
    (.inr ⟨by decide, .inr ?_⟩)
  have hbit : nodeBit (twoNodesRanges 0x20000) = 29 := by decide
  rw [hbit]
  refine ⟨fun p hp hz => ⟨by decide, ?_⟩, ?_, ?_, ?_⟩
  · change p / 2 ^ 32 % 2 ^ 4 = 0 at hz
    change p / 2 ^ 17 % 2 ^ 4 = 0
    have hcases := (isPage_twoNodes (by decide)).mp hp
    omega
  · rw [twoNodesPmMap, List.forall_mem_cons, List.forall_mem_singleton]
    exact ⟨fun _ => by decide, fun _ => by decide⟩
  · rw [twoNodesRanges, List.forall_mem_cons, List.forall_mem_singleton]
    exact ⟨fun h => absurd rfl h, fun _ _ => by decide⟩
  · rw [twoNodesRanges, List.forall_mem_cons, List.forall_mem_singleton]
    refine ⟨fun _ a ha => ?_, fun hnot => absurd hnot (by decide)⟩
    have hlt : a < 0x20000 * 4096 := ha.2
    change a / 2 ^ 44 % 2 ^ 4 = 0
    omega

/-- With 1GB in node 0 a page of each node becomes the same page. -/
theorem not_isCompaction_largeNode :
    NodeTables (twoNodesPmMap 0x40000) (twoNodesRanges 0x40000) ∧
      ¬∃ fuel m, checkIfNeedsToMap fuel
        (.boot (twoNodesPmMap 0x40000) (twoNodesRanges 0x40000) 2) = some m ∧
          IsCompaction (twoNodesPmMap 0x40000) (twoNodesRanges 0x40000) m := by
  have ht := @nodeTables_twoNodes 0x40000 (by decide) (by decide)
  refine ⟨ht, ?_⟩
  rintro ⟨fuel, m, hrun, hc⟩
  have hbit : nodeBit (twoNodesRanges 0x40000) = 29 := by decide
  have hpos : 0 < largestOffset (twoNodesRanges 0x40000) := by decide
  have hm : Mapped (twoNodesPmMap 0x40000) (twoNodesRanges 0x40000) 2 m := by
    rcases (exists_checkIfNeedsToMap_iff ht.length_le ht.ranges_lt).mp ⟨fuel, hrun⟩ with
      ⟨hz, -⟩ | ⟨-, -, ⟨h0, -⟩ | ⟨-, hm⟩⟩
    · exact absurd hz (by decide)
    · exact absurd h0 hpos.ne'
    · exact hm
  have hbit' : m.highestMapBit.toNat = 29 := hbit ▸ hm.highestMapBit_toNat (by rw [hbit]; decide)
  have hfirst : m.compactPage 0x20000 = some 0x20000 :=
    compactPage_of_zero hm.mapNumaMemoryRange_eq (by decide) (by decide)
  have hsecond : m.compactPage 0x100000000 = some 0x20000 :=
    compactPage_eq hm.mapNumaMemoryRange_eq hbit' (by decide) (by decide) (by decide) (by decide)
      (by decide)
  exact absurd (hc.injective _ _ _ ((isPage_twoNodes (by decide)).mpr (by decide))
    ((isPage_twoNodes (by decide)).mpr (by decide)) hfirst hsecond) (by decide)

end LoongArch

end Memtest
