import Memtest.Lib.BubbleSort

/-!
# Sanitising the firmware memory map (`sanitize_e820_map` in `system/pmem.c`)

The firmware's e820 list may hold overlapping entries in any order. `sanitize_e820_map` turns each
entry into a start and an end change point, bubble-sorts the change points by address (start
points first among equals) and sweeps over them with the list of entries that overlap at the
current address. The highest type in that list is the type of the map from there on.

Addresses and sizes are 64-bit words. The type of an entry is only ever compared, so it is a
natural number. A pointer to an entry of `orig_map` is the entry together with its index; two
pointers are equal when the indices are.
-/

namespace Memtest

/-- `E820_MAP_SIZE` of `boot.h`. -/
def e820MapSize : ℕ := 128

/-- `E820_NONE`. -/
def e820None : ℕ := 0

/-- `E820_RAM`. -/
def e820Ram : ℕ := 1

/-- `E820_ACPI`: usable as RAM once the tables have been read. -/
def e820Acpi : ℕ := 3

/-- `e820_entry_t`. -/
structure E820Entry where
  addr : BitVec 64
  size : BitVec 64
  type : ℕ
  deriving DecidableEq, Repr

/-- The address just past an entry, in 64-bit arithmetic. -/
def E820Entry.endAddr (e : E820Entry) : BitVec 64 := e.addr + e.size

/-- The test that makes `sanitize_e820_map` give up: the entry wraps round the address space. -/
def E820Entry.wraps (e : E820Entry) : Bool := decide (e.addr + e.size < e.addr)

/-- A pointer into `orig_map`: the entry and its index. -/
abbrev EntryPtr := E820Entry × ℕ

/-- `struct change_member`. -/
structure ChangeMember where
  entry : EntryPtr
  start : Bool
  addr : BitVec 64
  deriving DecidableEq, Repr

/-- The change point at the start of an entry. -/
def startPoint (p : EntryPtr) : ChangeMember := ⟨p, true, p.1.addr⟩

/-- The change point at the end of an entry. -/
def endPoint (p : EntryPtr) : ChangeMember := ⟨p, false, p.1.addr + p.1.size⟩

/-- All change points in the order they are recorded. -/
def changePoints (origMap : List E820Entry) : List ChangeMember :=
  origMap.zipIdx.flatMap fun p => [startPoint p, endPoint p]

/-- The exchange test of the sort, for `current = change_point[i]` and
`last = change_point[i - 1]`. -/
def goesBefore (current last : ChangeMember) : Bool :=
  decide (current.addr < last.addr) ||
    (decide (current.addr = last.addr) && current.start && !last.start)

/-- The sorted `change_point` array. -/
def sortedPoints (origMap : List E820Entry) : List ChangeMember :=
  BubbleSort.sort goesBefore (changePoints origMap)

/-- The removal loop: every slot that holds `entry` gets the last slot's pointer, then the last
slot is dropped. -/
def removeOverlap (entry : EntryPtr) (overlapList : List EntryPtr) : List EntryPtr :=
  (overlapList.map fun p => if p.2 = entry.2 then overlapList.getLastD entry else p).dropLast

/-- The update of `overlap_list` at a change point. -/
def updateOverlap (cp : ChangeMember) (overlapList : List EntryPtr) : List EntryPtr :=
  if cp.start then overlapList ++ [cp.entry] else removeOverlap cp.entry overlapList

/-- The loop that picks the highest type of the overlapping entries. -/
def currentType (overlapList : List EntryPtr) : ℕ :=
  overlapList.foldl (fun cur p => if p.1.type > cur then p.1.type else cur) e820None

/-- The local variables of the sweep. `newMap` holds the finished entries
`new_map[0 .. new_map_entries - 1]`, `slot` is `new_map[new_map_entries]`. -/
structure SweepState where
  overlapList : List EntryPtr
  newMap : List E820Entry
  slot : E820Entry
  lastAddr : BitVec 64
  lastType : ℕ
  deriving DecidableEq, Repr

/-- The state in front of the sweep. `slot` is uninitialised memory in the source; nothing reads
it before it is written. -/
def SweepState.init : SweepState :=
  { overlapList := [], newMap := [], slot := ⟨0#64, 0#64, 0⟩, lastAddr := 0#64
    lastType := e820None }

/-- The part of the loop body that keeps track of the overlapping entries. -/
def recordOverlap (cp : ChangeMember) (s : SweepState) : SweepState :=
  { s with overlapList := updateOverlap cp s.overlapList }

/-- The part of the loop body that finishes `new_map[new_map_entries]` when the type changes. An
entry of size zero is not counted, so its slot is used again. -/
def closeEntry (cp : ChangeMember) (s : SweepState) : SweepState :=
  if s.lastType ≠ e820None then
    let slot := { s.slot with size := cp.addr - s.lastAddr }
    if slot.size ≠ 0#64 then { s with newMap := s.newMap ++ [slot], slot := slot }
    else { s with slot := slot }
  else s

/-- The part of the loop body that starts `new_map[new_map_entries]`. -/
def openEntry (cp : ChangeMember) (type : ℕ) (s : SweepState) : SweepState :=
  if type ≠ e820None then
    { s with slot := { s.slot with addr := cp.addr, type := type }
             lastAddr := cp.addr
             lastType := type }
  else { s with lastType := type }

/-- The sweep over the change points, into an array of `mapSize` entries. It stops early when the
array is full. -/
def sweep (mapSize : ℕ) : List ChangeMember → SweepState → List E820Entry
  | [], s => s.newMap
  | cp :: cps, s =>
      let s := recordOverlap cp s
      let type := currentType s.overlapList
      if type ≠ s.lastType then
        let closed := closeEntry cp s
        if closed.newMap.length > s.newMap.length ∧ closed.newMap.length ≥ mapSize then
          closed.newMap
        else sweep mapSize cps (openEntry cp type closed)
      else sweep mapSize cps s

/-- `sanitize_e820_map` with an output array of `mapSize` entries. -/
def sanitizeE820MapInto (mapSize : ℕ) (origMap : List E820Entry) : List E820Entry :=
  if origMap.any E820Entry.wraps then [] else sweep mapSize (sortedPoints origMap) .init

/-- `sanitize_e820_map`: the entries of `new_map`, whose number is the returned value. -/
def sanitizeE820Map (origMap : List E820Entry) : List E820Entry :=
  sanitizeE820MapInto e820MapSize origMap

example : sanitizeE820Map [⟨0x1000#64, 0x3000#64, 1⟩, ⟨0x2000#64, 0x1000#64, 2⟩] =
    [⟨0x1000#64, 0x1000#64, 1⟩, ⟨0x2000#64, 0x1000#64, 2⟩, ⟨0x3000#64, 0x1000#64, 1⟩] := by
  decide

end Memtest
