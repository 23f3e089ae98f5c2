import Mathlib.Data.BitVec
import Memtest.Tests.MovInvRng
import Memtest.Tests.AddrWalk1

/-!
# Rowhammer (`tests/rowhammer.c`)

The test hammers rows of memory at `RH_SITES` sites of a window and looks for bit flips in the rows
next to them. It runs on one CPU.

What it finds out by measuring times is given: the distance of two rows in a bank, the period of a
pattern, and how often a site is hammered before its share of the time is over. The hammering
itself only reads, so it has no effect here, nor has waiting for a refresh or a flush of the caches
by the only active CPU.
-/

namespace Memtest

open Hoare

variable {arch : Arch}

/-- `RH_SITES`. -/
def rhSites : ℕ := 64

/-- `RH_MAX_PERIOD`. -/
def rhMaxPeriod : ℕ := 128

/-- `RH_VICTIM_BYTES`. -/
def rhVictimBytes : ℕ := 4096

/-- `RH_AGGR_BYTES`. -/
def rhAggrBytes : ℕ := 64

/-- An aggressor of a pattern. -/
structure Aggressor where
  offset : ℕ
  freq : ℕ
  phase : ℕ
  amp : ℕ

/-- `rh_blind_strides`. -/
def rhBlindStrides : List ℕ := [32 <<< 10, 64 <<< 10, 128 <<< 10, 256 <<< 10, 512 <<< 10]

/-- Aggressors in even rows, which appear once in a period. -/
def evenRows (phases : List ℕ) : List Aggressor :=
  phases.zipIdx.map fun x => ⟨2 * x.2, 1, x.1, 1⟩

/-- `rh_static_patterns`. -/
def rhStaticPatterns : List (List Aggressor) :=
  [evenRows [0, 0],
    evenRows [0, 16, 32, 48],
    evenRows [0, 8, 16, 24, 32, 40, 48, 56],
    [⟨0, 4, 0, 1⟩, ⟨4, 4, 2, 1⟩, ⟨2, 1, 32, 1⟩],
    [⟨0, 4, 0, 2⟩, ⟨2, 2, 8, 1⟩, ⟨4, 4, 16, 2⟩, ⟨6, 2, 24, 1⟩]]

/-- What is found out by measuring. `trips i` is how often the loop at site `i` is repeated. -/
structure HammerTiming (arch : Arch) where
  discovered : Testword arch
  period : ℕ
  trips : ℕ → ℕ

/-! ### Patterns -/

/-- The slots of a period that an aggressor asks for, in order. -/
def slotsOf (period : ℕ) (a : Aggressor) : List ℕ :=
  let f := if a.freq ≠ 0 then a.freq else 1
  let amp := if a.amp ≠ 0 then a.amp else 1
  let step := if period / f = 0 then 1 else period / f
  (List.range f).flatMap fun k =>
    (List.range amp).map fun m => ((a.phase + k * step) % period + m) % period

/-- The aggressor that gets a slot: the first one that asks for it. -/
def slotOwner (pattern : List Aggressor) (period slot : ℕ) : Option Aggressor :=
  pattern.find? fun a => slot ∈ slotsOf period a

/-- `rh_materialize`: the addresses that the pattern accesses in one period, slot by slot. A slot
without an owner is left out, as is an address that does not lie in the segment with its whole
word. -/
def rhMaterialize (pattern : List Aggressor) (base stride segStart segEnd : Testword arch)
    (period : ℕ) : List (Testword arch) :=
  let period := min period rhMaxPeriod
  (List.range period).filterMap fun slot => do
    let a ← slotOwner pattern period slot
    let addr := base + BitVec.ofNat arch.bits a.offset * stride
    if addr < segStart then none
    else if addr + BitVec.ofNat arch.bits arch.wordBytes > segEnd then none
    else some addr

/-- `rh_victims`: the rows next to an aggressor that are not aggressors themselves. -/
def rhVictims (pattern : List Aggressor) : List ℕ :=
  let rows := pattern.flatMap fun a =>
    (if a.offset = 0 then [] else [a.offset - 1]) ++ if a.offset = 255 then [] else [a.offset + 1]
  (rows.filter fun off => off ∉ pattern.map Aggressor.offset).foldl
    (fun victims off => if off ∈ victims then victims else victims ++ [off]) []

/-- The aggressors of `rh_fuzz_pattern` behind row `off`, with the state of the generator
afterwards. Each takes four numbers, for its distance, frequency, phase and amplitude; what could
exceed the eight bits of the source's fields is cut to them. -/
def fuzzAggressors (period : ℕ) : (n off : ℕ) → Testword arch → List Aggressor × Testword arch
  | 0, _, s => ([], s)
  | n + 1, off, s =>
      let s1 := prsg s
      let s2 := prsg s1
      let s3 := prsg s2
      let s4 := prsg s3
      let off := (off + 2 + s1.toNat % 2) % 256
      let f := 1 + s2.toNat % 4
      let rest := fuzzAggressors period n off s4
      (⟨off, if f > period then 1 else f, s3.toNat % period % 256, 1 + s4.toNat % 2⟩ :: rest.1,
        rest.2)

/-- `rh_fuzz_pattern`: the pattern, and the state of the generator behind it. -/
def rhFuzzPattern (state : Testword arch) (period : ℕ) : List Aggressor × Testword arch :=
  let s := prsg state
  let r := fuzzAggressors period (2 + s.toNat % 15) 0 s
  (r.1, prsg r.2)

/-! ### Filling and checking -/

/-- The words of a region that lie in the segment. -/
def rhRegion (addr : Testword arch) (bytes : ℕ) (segStart segEnd : Testword arch) : List ℕ :=
  let a := if .ofNat arch.bits (roundUp arch addr.toNat arch.wordBytes) < segStart then
    roundUp arch segStart.toNat arch.wordBytes else roundUp arch addr.toNat arch.wordBytes
  let e := addr + BitVec.ofNat arch.bits bytes
  let e := if e > segEnd then segEnd else e
  List.range' (a / arch.wordBytes) ((e.toNat - a) / arch.wordBytes)

/-- `rh_fill_region`. -/
def rhFillRegion (addr word : Testword arch) (bytes : ℕ) (segStart segEnd : Testword arch) :
    TestM arch Unit :=
  (rhRegion addr bytes segStart segEnd).foldlM (fun _ p => writeWord p word) ()

/-- The address of a row. -/
def rowAddr (base stride : Testword arch) (offset : ℕ) : Testword arch :=
  base + BitVec.ofNat arch.bits offset * stride

/-- `rh_fill`. -/
def rhFill (base stride : Testword arch) (pattern : List Aggressor) (vword segStart
    segEnd : Testword arch) : TestM arch Unit := do
  pattern.foldlM (fun _ a =>
    rhFillRegion (rowAddr base stride a.offset) (~~~vword) rhAggrBytes segStart segEnd) ()
  (rhVictims pattern).foldlM (fun _ off =>
    rhFillRegion (rowAddr base stride off) vword rhVictimBytes segStart segEnd) ()

/-- `rh_check`. -/
def rhCheck (env : TestEnv arch) (base stride : Testword arch) (pattern : List Aggressor)
    (vword segStart segEnd : Testword arch) : TestM arch Unit :=
  (rhVictims pattern).foldlM (fun _ off =>
    (rhRegion (rowAddr base stride off) rhVictimBytes segStart segEnd).foldlM (fun _ p =>
      checkWord env p vword false) ()) ()

/-- `REP_PATTERN`. -/
def repPattern (arch : Arch) (b : ℕ) : Testword arch :=
  match arch with
  | .b64 => 0x0101010101010101#64 * BitVec.ofNat 64 b
  | .b32 => 0x01010101#32 * BitVec.ofNat 32 b

/-- `vic_words`. -/
def vicWords (arch : Arch) : List (Testword arch) :=
  [0, BitVec.allOnes arch.bits, repPattern arch 0x55, repPattern arch 0xaa]

/-! ### Sites -/

/-- A site, and the segment it lies in, up to its last byte. -/
structure HammerSite (arch : Arch) where
  addr : Testword arch
  segStart : Testword arch
  segEnd : Testword arch

/-- The end of a segment, behind its last word. -/
def segmentEnd (arch : Arch) (seg : VmSegment) : Testword arch :=
  BitVec.ofNat arch.bits seg.stop + BitVec.ofNat arch.bits arch.wordBytes

/-- `total_bytes`. -/
def totalBytes (arch : Arch) (vmMap : List VmSegment) : Testword arch :=
  (vmMap.map fun seg => segmentEnd arch seg - BitVec.ofNat arch.bits seg.start).sum

/-- The loop over the segments that finds the site, `target` bytes on. -/
def findSite (arch : Arch) (target acc : Testword arch) :
    List VmSegment → Option (HammerSite arch)
  | [] => none
  | seg :: segs =>
      let ss := BitVec.ofNat arch.bits seg.start
      let se := segmentEnd arch seg
      if target < acc + (se - ss) then some ⟨ss + (target - acc), ss, se⟩
      else findSite arch target (acc + (se - ss)) segs

/-- The site with number `i`, in a window that begins with the segment `seg`. -/
def hammerSite (arch : Arch) (seg : VmSegment) (vmMap : List VmSegment) (i : ℕ) :
    HammerSite arch :=
  let step := totalBytes arch vmMap / BitVec.ofNat arch.bits rhSites
  let target := step * BitVec.ofNat arch.bits i + step / 2
  let site := (findSite arch target 0 vmMap).getD
    ⟨BitVec.ofNat arch.bits seg.start, BitVec.ofNat arch.bits seg.start, segmentEnd arch seg⟩
  let addr := BitVec.ofNat arch.bits (roundDown arch site.addr.toNat 64)
  { site with addr := if addr < site.segStart then site.segStart else addr }

/-- One trip of the loop at a site, with the pattern it uses. The stride is the discovered one or,
without it, one of the fixed ones in turn. A pattern that does not fit into the segment is passed
over. Rows are filled before and checked after the hammering, which itself only reads. -/
def hammerTrip (env : TestEnv arch) (timing : HammerTiming arch) (site : HammerSite arch)
    (pattern : List Aggressor) (iter : ℕ) : TestM arch Unit :=
  let stride := if timing.discovered ≠ 0 then timing.discovered
    else BitVec.ofNat arch.bits (rhBlindStrides.getD (iter % 5) 0)
  let vword := (vicWords arch).getD (iter % 4) 0
  -- the pattern does not fit into the segment
  if rhMaterialize pattern site.addr stride site.segStart site.segEnd timing.period = [] then
    pure ()
  else do
    rhFill site.addr stride pattern vword site.segStart site.segEnd
    rhCheck env site.addr stride pattern vword site.segStart site.segEnd

/-- The pattern of a trip, and the state of the generator behind it. -/
def tripPattern (timing : HammerTiming arch) (useFuzz : Bool) (iter : ℕ)
    (fuzzState : Testword arch) : List Aggressor × Testword arch :=
  if useFuzz = true then rhFuzzPattern fuzzState timing.period
  else (rhStaticPatterns.getD (iter % 5) [], fuzzState)

/-- The loop at a site, from trip `iter` on, with `trips` more to come. It ends early when the
test is left, but not before the first trip. The state of the generator goes on from trip to trip.
-/
def hammerLoop (env : TestEnv arch) (timing : HammerTiming arch) (site : HammerSite arch)
    (useFuzz : Bool) : (trips iter : ℕ) → Testword arch → TestM arch (Testword arch)
  | 0, iter, fuzzState => do
      let r := tripPattern timing useFuzz iter fuzzState
      hammerTrip env timing site r.1 iter
      pure r.2
  | trips + 1, iter, fuzzState => do
      let r := tripPattern timing useFuzz iter fuzzState
      hammerTrip env timing site r.1 iter
      let s ← get
      if env.bail s.doTicks = true then pure r.2
      else hammerLoop env timing site useFuzz trips (iter + 1) r.2

/-- The loop body over the sites. The state of the generator is carried from one to the next. -/
def hammerSegment (env : TestEnv arch) (timing : HammerTiming arch) (seg : VmSegment)
    (fuzzState : Testword arch) (i : ℕ) : TestM arch (Testword arch) := do
  modify TestState.countTick
  if env.myCpu < 0 then pure fuzzState
  else
    useCpuSlot env.myCpu
    let fuzzState ← hammerLoop env timing (hammerSite arch seg env.vmMap i)
      (decide (i ≥ rhSites / 2)) (timing.trips i) 0 fuzzState
    doTick env
    pure fuzzState

/-- A site of a window that has no memory. -/
def emptySite (env : TestEnv arch) : TestM arch Unit := do
  modify TestState.countTick
  if env.myCpu < 0 then pure () else doTick env

/-- `test_rowhammer`. Without a segment, or with less than one word of memory, the sites have
their ticks alone. Otherwise the generator starts from the numbers of the pass and the CPU, and
the sites follow one another by their number. -/
def testRowhammer (env : TestEnv arch) (timing : HammerTiming arch) (passNum : ℕ) :
    TestM arch Unit :=
  match env.vmMap with
  | [] => (List.range rhSites).foldlM (fun _ _ => emptySite env) ()
  | seg :: _ =>
      if totalBytes arch env.vmMap < BitVec.ofNat arch.bits arch.wordBytes then
        (List.range rhSites).foldlM (fun _ _ => emptySite env) ()
      else do
        let fuzzState :=
          BitVec.ofNat arch.bits (1 + passNum) * BitVec.ofNat arch.bits 0x9e3779b1 ^^^
          BitVec.ofInt arch.bits (env.myCpu + 1) <<< 8
        let _ ← (List.range rhSites).foldlM (hammerSegment env timing seg) fuzzState
        pure ()

end Memtest
