import Memtest.Lib.Executions
import Memtest.Smp.Madt
import Memtest.Tests.Chunk
import Memtest.Windows.VmMap

/-!
# The two heaps (`system/heap.c`)

Memory for data structures that stay in place is taken off the end of a segment of `pm_map`, so
that it is not tested. Each heap has a segment, which may be the same for both. What has been
allocated is written down nowhere but in the end of the segment: `heap_mark` returns the end, and
`heap_rewind` sets it back.

A run of the program is a sequence of calls here (`HeapOp`). Beside the state of the program it has
a record of who has taken which pages, and when (`Carved`), which no call looks at.
-/

namespace Memtest

/-- `ARCH_BITS` of a build. -/
def SmpBuild.arch : SmpBuild → Arch
  | .x86 arch => arch
  | .loongarch => .b64
  | .aarch64 => .b64

/-- `pm_map_t`, with page numbers of either width. -/
structure PageSegment where
  start : ℕ
  stop : ℕ
  deriving DecidableEq, Repr

/-- The pages of a segment. -/
def PageSegment.pages (seg : PageSegment) : Set ℕ := Set.Ico seg.start seg.stop

/-- `heap_type_t`. -/
inductive HeapType
  | lm1
  | hm1
  deriving DecidableEq, Repr

/-- `heap_t` with a segment that is not negative. -/
structure Heap where
  segment : ℕ
  start : ℕ
  stop : ℕ
  deriving DecidableEq, Repr

/-- `pm_map` and `heaps`. -/
structure HeapState where
  pmMap : List PageSegment
  heaps : HeapType → Option Heap

/-! ### The calls -/

/-- `num_pages`. -/
def numPages (arch : Arch) (size : ℕ) : ℕ := ((size + pageSize - 1) % 2 ^ arch.bits) >>> pageShift

/-- `pm_map[i].end = stop`. -/
def HeapState.setStop (s : HeapState) (i stop : ℕ) : HeapState :=
  { s with pmMap := s.pmMap.modify i fun seg => { seg with stop := stop } }

/-- `pm_map[i].end`. -/
def HeapState.stopOf (s : HeapState) (i : ℕ) : ℕ := (s.pmMap.getD i ⟨0, 0⟩).stop

/-- `addr` of `heap_alloc` before it is compared with the start of the heap. The mask is that of a
rounding to `(alignment - 1) >> PAGE_SHIFT` and one. -/
def heapAddr (arch : Arch) (stop size alignment : ℕ) : ℕ :=
  roundDown arch ((stop + 2 ^ arch.bits - numPages arch size) % 2 ^ arch.bits)
    (((alignment - 1) >>> pageShift) + 1)

/-- `heap_alloc`. -/
def heapAlloc (arch : Arch) (s : HeapState) (heapId : HeapType) (size alignment : ℕ) :
    ℕ × HeapState :=
  match s.heaps heapId with
  | none => (0, s)
  | some heap =>
      let addr := heapAddr arch (s.stopOf heap.segment) size alignment
      if addr < heap.start then (0, s)
      else ((addr <<< pageShift) % 2 ^ arch.bits, s.setStop heap.segment addr)

/-- `heap_mark`. -/
def heapMark (s : HeapState) (heapId : HeapType) : ℕ :=
  match s.heaps heapId with
  | none => 0
  | some heap => s.stopOf heap.segment

/-- `heap_rewind`. -/
def heapRewind (s : HeapState) (heapId : HeapType) (mark : ℕ) : HeapState :=
  match s.heaps heapId with
  | none => s
  | some heap =>
      if s.stopOf heap.segment < mark ∧ mark ≤ heap.stop then s.setStop heap.segment mark else s

/-! ### `heap_init` -/

/-- `heap_limit`, in pages. -/
def heapLimit (build : SmpBuild) (pmMap : List PageSegment) : ℕ :=
  match build with
  | .aarch64 =>
      if (pmMap.getD 0 ⟨0, 0⟩).start < 0xC0000 then 0xC0000
      else (pmMap.getD 0 ⟨0, 0⟩).start + 0x100000
  | _ => 0x100000

/-- `low_memory_heap`, in pages. -/
def lowMemoryHeap (build : SmpBuild) (pmMap : List PageSegment) : ℕ :=
  match build with
  | .x86 _ => 0x100
  | .loongarch => 0x10000
  | .aarch64 => (pmMap.getD 0 ⟨0, 0⟩).start + 0x10000

/-- The first segment across the limit is split in two, if there is room for one more; `room` is
what is left of the array. -/
def splitAt (limit room : ℕ) : List PageSegment → List PageSegment
  | [] => []
  | seg :: pmMap =>
      if seg.start < limit ∧ limit < seg.stop then
        if 0 < room then { seg with stop := limit } :: { seg with start := limit } :: pmMap
        else seg :: pmMap
      else seg :: splitAt limit room pmMap

/-- The map that the heaps are looked for in. -/
def heapPmMap (build : SmpBuild) (pmMap : List PageSegment) : List PageSegment :=
  match build with
  | .aarch64 => splitAt (heapLimit build pmMap) (maxMemSegments - pmMap.length) pmMap
  | _ => pmMap

/-- `max_segment_size` and `heaps` in the loop of `heap_init`. -/
structure HeapScan where
  maxSegmentSize : ℕ
  heaps : HeapType → Option Heap

/-- The body of the loop of `heap_init`, for the segment `i`. A segment that holds the whole
program counts from the end of the program only. The last of the largest segments becomes the heap
for high memory, and also the one for low memory when it ends below that bound. -/
def heapInitStep (build : SmpBuild) (lowMemoryHeap programStart programEnd : ℕ) (s : HeapScan)
    (seg : PageSegment) (i : ℕ) : HeapScan :=
  let start :=
    if seg.start ≤ programStart ∧ programEnd ≤ seg.stop then programEnd else seg.start
  let size := (seg.stop + 2 ^ build.arch.bits - start) % 2 ^ build.arch.bits
  if s.maxSegmentSize ≤ size then
    { maxSegmentSize := size
      heaps := fun heapId =>
        match heapId with
        | .lm1 => if seg.stop ≤ lowMemoryHeap then some ⟨i, start, seg.stop⟩ else s.heaps .lm1
        | .hm1 => some ⟨i, start, seg.stop⟩ }
  else s

/-- `heap_init`, for a program at the addresses from `_start` to `_end`. Only the segments up to
the first one beyond the limit are looked at. On AArch64 the heap for low memory falls back on the
one for high memory. -/
def heapInit (build : SmpBuild) (pmMap : List PageSegment) (startAddr endAddr : ℕ) : HeapState :=
  let programStart := startAddr >>> pageShift
  let programEnd := programStart + numPages build.arch (endAddr - startAddr)
  let limit := heapLimit build pmMap
  let low := lowMemoryHeap build pmMap
  let pmMap := heapPmMap build pmMap
  let scanned := pmMap.takeWhile fun seg => seg.stop ≤ limit
  let heaps := (scanned.zipIdx.foldl
    (fun s (seg, i) => heapInitStep build low programStart programEnd s seg i)
    ⟨0, fun _ => none⟩).heaps
  { pmMap := pmMap
    heaps :=
      match build with
      | .aarch64 => fun heapId => (heaps heapId).or (heaps .hm1)
      | _ => heaps }

/-! ### Runs -/

/-- Pages that an allocation has taken off a segment and that have not been given back: the block
is the first `blockPages` of them, and it is live until its heap is rewound to a mark that is older
than the block. -/
structure Carved where
  owner : HeapType
  segment : ℕ
  start : ℕ
  stop : ℕ
  blockPages : ℕ
  time : ℕ
  live : Bool
  deriving DecidableEq, Repr

/-- The pages of the block. -/
def Carved.block (c : Carved) : Set ℕ := Set.Ico c.start (c.start + c.blockPages)

/-- What a call of `heap_mark` has returned. -/
structure HeapMark where
  owner : HeapType
  value : ℕ
  time : ℕ
  deriving DecidableEq, Repr

/-- The state of the program, what has been allocated from it, latest first, and the marks. -/
structure HeapRun where
  state : HeapState
  carved : List Carved
  marks : List HeapMark
  time : ℕ

/-- The calls: an allocation with an alignment to `2 ^ alignExp` bytes, a mark, and a rewind to the
mark with an index. -/
inductive HeapOp
  | alloc (heapId : HeapType) (size alignExp : ℕ)
  | mark (heapId : HeapType)
  | rewind (markIdx : ℕ)
  deriving DecidableEq, Repr

/-- What is left of an allocation when its segment is rewound to a mark of heap `m.owner`. -/
def Carved.rewound (m : HeapMark) (segment : ℕ) (c : Carved) : Option Carved :=
  let live := c.live && !(c.owner = m.owner && m.time ≤ c.time)
  if c.segment = segment ∧ c.start < m.value then
    if c.stop ≤ m.value then none else some { c with start := m.value, live := false }
  else some { c with live := live }

/-- The record of a successful allocation. -/
def HeapRun.allocated (r : HeapRun) (heapId : HeapType) (size : ℕ) (state : HeapState) :
    List Carved :=
  match r.state.heaps heapId with
  | none => r.carved
  | some heap =>
      { owner := heapId
        segment := heap.segment
        start := state.stopOf heap.segment
        stop := r.state.stopOf heap.segment
        blockPages := (size + pageSize - 1) / pageSize
        time := r.time
        live := true } :: r.carved

/-- A call; a size has to be one of the machine's words, an alignment too, and a mark one that has
been returned. -/
def heapStep (arch : Arch) (op : HeapOp) (r : HeapRun) : Option HeapRun :=
  match op with
  | .alloc heapId size alignExp =>
      if size < 2 ^ arch.bits ∧ alignExp < arch.bits then
        let result := heapAlloc arch r.state heapId size (2 ^ alignExp)
        some { r with
          state := result.2
          carved := if result.1 = 0 then r.carved else r.allocated heapId size result.2
          time := r.time + 1 }
      else none
  | .mark heapId =>
      some { r with
        marks := r.marks ++ [⟨heapId, heapMark r.state heapId, r.time⟩]
        time := r.time + 1 }
  | .rewind markIdx =>
      r.marks[markIdx]?.map fun m =>
        { r with
          state := heapRewind r.state m.owner m.value
          carved :=
            match r.state.heaps m.owner with
            | none => r.carved
            | some heap => r.carved.filterMap (Carved.rewound m heap.segment)
          time := r.time + 1 }

/-- Before the first call. -/
def heapRunInit (build : SmpBuild) (pmMap : List PageSegment) (startAddr endAddr : ℕ) : HeapRun :=
  ⟨heapInit build pmMap startAddr endAddr, [], [], 0⟩

end Memtest
