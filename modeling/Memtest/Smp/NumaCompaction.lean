import Memtest.Lib.NarrowCounter
import Memtest.Pmem.PmMap
import Memtest.Windows.VmMap

/-!
# NUMA compaction (`check_if_needs_to_map` in `system/smp.c` and `system/loongarch/vmem.c`)

On LoongArch the number of a memory node is in the bits 44 to 47 of a physical address. The windows
would be far apart, so the node's number is moved down in `pm_map` and in `memory_affinity_ranges`,
to the bit above the largest offset that the affinity table has, and `first_word_mapping` moves it
up again.

Three kinds of arithmetic meet here. The tables hold 64-bit words. The counters and the bit numbers
are `uint8_t`. The node's number is shifted as an `int`, and where the result is not an `int`, or
the count is negative or not less than the width, C gives the expression no value: here that is
`none`, as a loop that does not end is.
-/

namespace Memtest

namespace LoongArch

open NarrowCounter

/-- `node_offset`. -/
def nodeOffset : ℕ := 44

/-- `0xF` as a 64-bit word. -/
def nodeMask : BitVec 64 := 0xf#64

/-- `x << count` for an `int` that is not negative, converted to a 64-bit word. -/
def shlInt (x : ℕ) (count : ℤ) : Option (BitVec 64) :=
  if 0 ≤ count ∧ count < 32 ∧ x * 2 ^ count.toNat < 2 ^ 31 then
    some (BitVec.ofNat 64 (x * 2 ^ count.toNat))
  else none

/-- `x >> count` for a `uintptr_t`. -/
def shrUintptr (x : BitVec 64) (count : ℤ) : Option (BitVec 64) :=
  if 0 ≤ count ∧ count < 64 then some (x >>> count.toNat) else none

/-- The variables that `check_if_needs_to_map` reads and writes. The tables are the parts of the
arrays that are in use, so their lengths are the counters. -/
structure NumaMap where
  pmMap : List PmSegment
  memoryAffinityRanges : List MemoryAffinity
  numProximityDomains : ℕ
  mapNumaMemoryRange : Bool
  highestMapBit : BitVec 8
  deriving DecidableEq, Repr

/-- The variables when the firmware's tables have been read. -/
def NumaMap.boot (pmMap : List PmSegment) (ranges : List MemoryAffinity)
    (numProximityDomains : ℕ) : NumaMap where
  pmMap := pmMap
  memoryAffinityRanges := ranges
  numProximityDomains := numProximityDomains
  mapNumaMemoryRange := false
  highestMapBit := 0#8

/-! ### The bit to move to -/

/-- The `do` loop of `checkout_max_memory_bits_of_this_numa_node`. -/
def countBits : ℕ → BitVec 64 → BitVec 8 → Option (BitVec 8)
  | 0, _, _ => none
  | fuel + 1, maxMemoryRange, bits =>
      let bits := bits + 1#8
      let maxMemoryRange := maxMemoryRange >>> 1
      if maxMemoryRange > 1#64 then countBits fuel maxMemoryRange bits else some bits

/-- `checkout_max_memory_bits_of_this_numa_node`. -/
def checkoutMaxMemoryBits (fuel : ℕ) (range : MemoryAffinity) : Option (BitVec 8) :=
  let maxMemoryRange := BitVec.ofNat 64 range.stop &&& ~~~(nodeMask <<< nodeOffset)
  if maxMemoryRange > 0#64 then countBits fuel maxMemoryRange 0#8 else some 0#8

/-- The loop body of `check_if_needs_to_map`. -/
def raiseMaxMemoryBits (fuel : ℕ) (maxMemoryBits : BitVec 8) (range : MemoryAffinity) :
    Option (BitVec 8) :=
  if range.proximityDomainIdx ≠ 0 then
    (checkoutMaxMemoryBits fuel range).map fun localMemoryAreaBits =>
      if maxMemoryBits < localMemoryAreaBits then localMemoryAreaBits else maxMemoryBits
  else some maxMemoryBits

/-! ### Moving the node's number -/

/-- The field at the bit `offset` of a word is cleared and the bits `moved` are set. -/
def moveNode (offset : ℕ) (moved x : BitVec 64) : BitVec 64 :=
  x &&& ~~~(nodeMask <<< offset) ||| moved

/-- The loop body for `pm_map`. -/
def mapPmSegment (highestBit : BitVec 8) (seg : PmSegment) : Option PmSegment :=
  let nodeNu := seg.start >>> (nodeOffset - pageShift) &&& nodeMask
  if nodeNu ≠ 0#64 then
    (shlInt nodeNu.toNat (highestBit.toNat - pageShift)).map fun moved =>
      ⟨moveNode (nodeOffset - pageShift) moved seg.start,
        moveNode (nodeOffset - pageShift) moved seg.stop⟩
  else some seg

/-- The loop body for `memory_affinity_ranges`. A range that is not of the first domain and has a
node number in its address has that number moved to the bit that is given, in its start and its
end alike. The shift is `none` where the source shifts an `int` too far. -/
def mapAffinityRange (highestBit : BitVec 8) (range : MemoryAffinity) : Option MemoryAffinity :=
  let start := BitVec.ofNat 64 range.start
  let stop := BitVec.ofNat 64 range.stop
  let nodeNu := start >>> nodeOffset &&& nodeMask
  if range.proximityDomainIdx ≠ 0 ∧ nodeNu ≠ 0#64 then
    (shlInt nodeNu.toNat highestBit.toNat).map fun moved =>
      ⟨range.proximityDomainIdx, (moveNode nodeOffset moved start).toNat,
        (moveNode nodeOffset moved stop).toNat⟩
  else some range

/-- `map_the_numa_memory_range`. -/
def mapTheNumaMemoryRange (fuel : ℕ) (highestBit : BitVec 8) (m : NumaMap) : Option NumaMap :=
  -- Both loops count with the same `uint8_t`.
  (forBelow m.pmMap.length (updateAt (mapPmSegment highestBit)) fuel 0#8 m.pmMap).bind fun pmMap =>
    (forBelow m.memoryAffinityRanges.length (updateAt (mapAffinityRange highestBit)) fuel 0#8
      m.memoryAffinityRanges).map fun ranges =>
        { m with pmMap := pmMap, memoryAffinityRanges := ranges }

/-- `check_if_needs_to_map`. Without proximity domains there is nothing to do. The ranges
determine the highest bit that is in use below the node number, and the tables are compacted with
the bit above it, unless there is none in use. -/
def checkIfNeedsToMap (fuel : ℕ) (m : NumaMap) : Option NumaMap :=
  if m.numProximityDomains = 0 then some m
  else
    (forBelow m.memoryAffinityRanges.length
      (readAt m.memoryAffinityRanges (raiseMaxMemoryBits fuel)) fuel 0#8 0#8).bind
        fun maxMemoryBits =>
          if maxMemoryBits > 0#8 then
            mapTheNumaMemoryRange fuel (maxMemoryBits + 1#8)
              { m with mapNumaMemoryRange := true, highestMapBit := maxMemoryBits + 1#8 }
          else some m

/-- `first_word_mapping`. When the tables have been compacted, the node number is moved back to
its place from the bits where the compaction put it, and the field it came from is cleared. A page
that is not of another node is only shifted to an address. -/
def firstWordMapping (m : NumaMap) (page : BitVec 64) : Option (BitVec 64) :=
  if m.mapNumaMemoryRange then
    let count : ℤ := m.highestMapBit.toNat - pageShift
    (shrUintptr page count).bind fun shifted =>
      if shifted &&& nodeMask ≠ 0#64 then
        (shlInt 0xf count).map fun field =>
          ((shifted &&& nodeMask) <<< 32 ||| page &&& ~~~field) <<< pageShift
      else some (page <<< pageShift)
  else some (page <<< pageShift)

end LoongArch

end Memtest
