import Memtest.Arch

/-!
# BadRAM pattern table (`app/badram.c`)

The fault record kept for the BadRAM, memmap and bad-pages reports: a table of at most
`MAX_PATTERNS` entries, each an `(addr, mask)` pair. In BadRAM mode `mask` is a bit mask over
`addr`; in the two range modes `addr` and `mask` are the lower and the upper address of a range.

`patterns[0 .. num_patterns - 1]` is a list here, and `num_patterns` its length. Array slots from
`num_patterns` on are only ever overwritten, so they are not kept.
-/

namespace Memtest

/-- `error_mode_t` of `config.h`. -/
inductive ErrorMode
  | none
  | summary
  | address
  | badram
  | memmap
  | pages
  deriving DecidableEq, Repr

/-- `MAX_PATTERNS`. -/
def maxPatterns : ℕ := 20

/-- `DEFAULT_MASK`: covers one test word. -/
def defaultMask : Arch → BitVec 64
  | .b64 => BitVec.allOnes 64 <<< 3
  | .b32 => BitVec.allOnes 64 <<< 2

/-- `pattern_t`: in the range modes `addr` is the lower and `mask` the upper address. -/
structure Pattern where
  addr : BitVec 64
  mask : BitVec 64
  deriving DecidableEq, Repr

/-- `COMBINE_MASK(a, b, c, d)`. -/
def combineMask (a b c d : BitVec 64) : BitVec 64 := (b &&& d) &&& ~~~(a ^^^ c)

/-- `combine`: the entry that replaces two entries. -/
def combine (mode : ErrorMode) (addr1 mask1 addr2 mask2 : BitVec 64) : Pattern :=
  if mode = .badram then
    let mask := combineMask addr1 mask1 addr2 mask2
    { addr := (addr1 ||| addr2) &&& mask, mask := mask }
  else
    { addr := if addr1 < addr2 then addr1 else addr2
      mask := if mask1 > mask2 then mask1 else mask2 }

/-- The loop of `addresses`, with `i` iterations left. -/
def addressesLoop : ℕ → BitVec 64 → BitVec 64 → BitVec 64
  | 0, ctr, _ => ctr
  | i + 1, ctr, mask =>
      addressesLoop i (if mask &&& 1#64 = 0#64 then ctr + ctr else ctr) (mask >>> 1)

/-- `addresses`: the number of addresses a mask accepts, in 64-bit arithmetic. -/
def addresses (mask : BitVec 64) : BitVec 64 := addressesLoop 64 1#64 mask

/-- `combi_cost`: how many more addresses the combination covers than entry 1, in 64-bit
arithmetic. -/
def combiCost (mode : ErrorMode) (addr1 mask1 addr2 mask2 : BitVec 64) : BitVec 64 :=
  let c := combine mode addr1 mask1 addr2 mask2
  if mode = .badram then addresses c.mask - addresses mask1
  else (c.mask - c.addr) - (mask1 - addr1)

/-- The loop of `cheapest_pair` from index `i` on, with the minimum found so far. -/
def cheapestPairLoop (mode : ErrorMode) :
    ℕ → List Pattern → BitVec 64 → Option ℕ → Option ℕ
  | i, p :: q :: ps, minCost, mergeIdx =>
      let tmpCost := combiCost mode p.addr p.mask q.addr q.mask
      if tmpCost ≤ minCost then cheapestPairLoop mode (i + 1) (q :: ps) tmpCost (some i)
      else cheapestPairLoop mode (i + 1) (q :: ps) minCost mergeIdx
  | _, _, _, mergeIdx => mergeIdx

/-- `cheapest_pair`: the index of the first entry of the neighbouring pair that is cheapest to
merge, the last one among equals. `none` is the result `-1`. -/
def cheapestPair (mode : ErrorMode) (patterns : List Pattern) : Option ℕ :=
  cheapestPairLoop mode 0 patterns (BitVec.allOnes 64) none

/-- `remove_pair`: remove the entries at `idx` and `idx + 1`. -/
def removePair (idx : ℕ) (patterns : List Pattern) : List Pattern :=
  patterns.take idx ++ patterns.drop (idx + 2)

/-- `combined_pattern`: the combination of two entries. An index past the end reads the zeroed
slots of the array. -/
def combinedPattern (mode : ErrorMode) (patterns : List Pattern) (idx1 idx2 : ℕ) : Pattern :=
  let p := patterns.getD idx1 ⟨0#64, 0#64⟩
  let q := patterns.getD idx2 ⟨0#64, 0#64⟩
  combine mode p.addr p.mask q.addr q.mask

/-- `insert_at`: entries from `idx` on move one place towards the end. -/
def insertAt (pattern : Pattern) (idx : ℕ) (patterns : List Pattern) : List Pattern :=
  patterns.take idx ++ pattern :: patterns.drop idx

/-- `insert_sorted`: insert in front of the first entry with a larger `addr`. -/
def insertSorted (mode : ErrorMode) (pattern : Pattern) (patterns : List Pattern) :
    List Pattern :=
  let pattern := if mode = .badram then { pattern with addr := pattern.addr &&& pattern.mask }
    else pattern
  insertAt pattern (patterns.findIdx fun p => decide (pattern.addr < p.addr)) patterns

/-- `badram_init`. -/
def badramInit : List Pattern := []

/-- The address `badram_insert` records: `((uint64_t)page << PAGE_SHIFT) + offset`. -/
def insertAddr {arch : Arch} (page offset : BitVec arch.bits) : BitVec 64 :=
  (page.setWidth 64 <<< pageShift) + offset.setWidth 64

/-- The entry `badram_insert` builds for a new address. -/
def newPattern (arch : Arch) (mode : ErrorMode) (addr : BitVec 64) : Pattern :=
  { addr := addr, mask := if mode = .badram then defaultMask arch else addr }

/-- The first loop of `badram_insert`: an entry that already covers the new one ends the call
with `false`, an entry that needs one more test word to cover it is combined with it in place. -/
def absorb (arch : Arch) (mode : ErrorMode) (pattern : Pattern) :
    List Pattern → Option (Bool × List Pattern)
  | [] => none
  | p :: ps =>
      let cost := combiCost mode p.addr p.mask pattern.addr pattern.mask
      if cost = 0#64 then some (false, p :: ps)
      else if cost = BitVec.ofNat 64 arch.wordBytes then
        some (true, combine mode p.addr p.mask pattern.addr pattern.mask :: ps)
      else (absorb arch mode pattern ps).map fun r => (r.1, p :: r.2)

/-- The forced merge of `badram_insert`, made when the table holds more than `MAX_PATTERNS`
entries. -/
def mergeCheapest (mode : ErrorMode) (patterns : List Pattern) : List Pattern :=
  match cheapestPair mode patterns with
  | none => patterns
  | some idx =>
      insertSorted mode (combinedPattern mode patterns idx (idx + 1)) (removePair idx patterns)

/-- `badram_insert`: the returned flag and the table afterwards. The pattern of the address is
first offered to the table as it is, where it can be covered already or be absorbed by a neighbour
(`absorb`). Otherwise it is inserted at its place, and the two cheapest patterns are merged where
the table has become longer than `MAX_PATTERNS`. The flag is false only for an address that some
pattern covers already. -/
def badramInsert {arch : Arch} (mode : ErrorMode) (page offset : BitVec arch.bits)
    (patterns : List Pattern) : Bool × List Pattern :=
  let pattern := newPattern arch mode (insertAddr page offset)
  match absorb arch mode pattern patterns with
  | some r => r
  | none =>
      let patterns := insertSorted mode pattern patterns
      if patterns.length > maxPatterns then (true, mergeCheapest mode patterns)
      else (true, patterns)

/-- The table after `badram_init` and a sequence of calls of `badram_insert`, in one mode. -/
def badramRun {arch : Arch} (mode : ErrorMode)
    (calls : List (BitVec arch.bits × BitVec arch.bits)) : List Pattern :=
  calls.foldl (fun patterns c => (badramInsert mode c.1 c.2 patterns).2) badramInit

end Memtest
