import Memtest.Arch
import Memtest.Pmem.Sanitize

/-!
# The tested-page map (`init_pm_map`, `sort_pm_map` and `pmem_init` in `system/pmem.c`)

`pmem_init` sanitises the firmware's map, turns every RAM and ACPI entry into a segment of whole
pages (`start` rounded up, `end` rounded down) after clipping it against the reserved range from
640KB to 1MB, merges a segment into its predecessor where the two meet, and sorts the segments.

This is the 64-bit build: `uintptr_t` and `size_t` are 64-bit words.
-/

namespace Memtest

/-- `RESERVED_MEM_START`. -/
def reservedMemStart : BitVec 64 := 0x0a0000#64

/-- `RESERVED_MEM_END`. -/
def reservedMemEnd : BitVec 64 := 0x100000#64

/-- `pm_map_t`: the pages from `start` up to, not including, `stop` (`end` in the source). -/
structure PmSegment where
  start : BitVec 64
  stop : BitVec 64
  deriving DecidableEq, Repr

/-- A page number lies in a segment. -/
def PmSegment.Contains (seg : PmSegment) (page : ℕ) : Prop :=
  seg.start.toNat ≤ page ∧ page < seg.stop.toNat

/-- The globals `pmem_init` sets: `pm_map[0 .. pm_map_size - 1]` and `num_pm_pages`. -/
structure PmState where
  pmMap : List PmSegment
  numPmPages : BitVec 64
  deriving DecidableEq, Repr

/-- The types of entries that are tested. -/
def E820Entry.IsUsable (e : E820Entry) : Prop := e.type = e820Ram ∨ e.type = e820Acpi

instance (e : E820Entry) : Decidable e.IsUsable := inferInstanceAs (Decidable (_ ∨ _))

/-- Whether an address lies strictly inside the reserved range. -/
def inReserved (a : BitVec 64) : Prop := a > reservedMemStart ∧ a < reservedMemEnd

instance (a : BitVec 64) : Decidable (inReserved a) := inferInstanceAs (Decidable (_ ∧ _))

/-- The part of the loop body of `init_pm_map` that computes the segment of an entry; `none` is
the `continue` for entries inside the reserved range, and for entries of other types. -/
def rawSegment (e : E820Entry) : Option PmSegment :=
  if e.IsUsable then
    let start := e.addr
    let stop := start + e.size
    -- don't ever use memory between 640KB and 1024KB
    if inReserved start ∧ stop < reservedMemEnd then none
    else
      let start := if inReserved start then reservedMemEnd else start
      let stop := if inReserved stop then reservedMemStart else stop
      some ⟨(start + BitVec.ofNat 64 pageSize - 1#64) >>> pageShift, stop >>> pageShift⟩
  else none

/-- The part of the loop body that stores a segment: into the last one when they meet, after it
otherwise. -/
def addSegment (pmMap : List PmSegment) (seg : PmSegment) : List PmSegment :=
  match pmMap.getLast? with
  | some last =>
      if seg.start = last.stop then pmMap.dropLast ++ [{ last with stop := seg.stop }]
      else pmMap ++ [seg]
  | none => pmMap ++ [seg]

/-- One iteration of the loop in `init_pm_map`. -/
def initPmMapStep (s : PmState) (e : E820Entry) : PmState :=
  match rawSegment e with
  | some seg =>
      { pmMap := addSegment s.pmMap seg
        numPmPages := s.numPmPages + (seg.stop - seg.start) }
  | none => s

/-- `init_pm_map`, called with `num_pm_pages` set to `0`. -/
def initPmMap (e820Map : List E820Entry) : PmState := e820Map.foldl initPmMapStep ⟨[], 0#64⟩

/-- The inner loop of `sort_pm_map` on the sorted part of the array, given from its end to its
start. -/
def shiftInsert (candidate : PmSegment) : List PmSegment → List PmSegment
  | [] => [candidate]
  | p :: ps =>
      if p.start > candidate.start then p :: shiftInsert candidate ps else candidate :: p :: ps

/-- `sort_pm_map`: an insertion sort by `start`. -/
def sortPmMap (pmMap : List PmSegment) : List PmSegment :=
  (pmMap.foldl (fun sorted candidate => shiftInsert candidate sorted) []).reverse

/-- The entries of the firmware's map that `pmem_init` looks at. -/
def bootE820Map (e820Map : List E820Entry) : List E820Entry := e820Map.take e820MapSize

/-- `pmem_init`. -/
def pmemInit (e820Map : List E820Entry) : PmState :=
  let s := initPmMap (sanitizeE820Map (bootE820Map e820Map))
  { s with pmMap := sortPmMap s.pmMap }

example : pmemInit [⟨0#64, 0x9fc00#64, 1⟩, ⟨0x100000#64, 0x300800#64, 1⟩] =
    ⟨[⟨0#64, 0x9f#64⟩, ⟨0x100#64, 0x400#64⟩], 0x39f#64⟩ := by
  decide

end Memtest
