import Memtest.Tests.MovInvRngSpec
import Memtest.Tests.TestWaits

/-!
# The waits of the vector tests and of bit fade

The kernels do not wait. A chunk has a tick for each block of its body only, and with no body it is
skipped with one tick, as an empty chunk is.
-/

namespace Memtest

open Hoare

variable {arch : Arch} {env : TestEnv arch} {I : List Wait → TestState arch → Prop}
  {R : Exit → TestState arch → Prop}

/-! ### Kernels -/

theorem forLanes_follows {body : Fin vecLanes → TestM arch Unit}
    (hbody : ∀ l, Follows I R (body l) []) :
    Follows I R (forLanes body) [] :=
  Follows.foldlM_nil (fun l _ _ => hbody l) ()

section

variable (h : Account env I R) (hcpu : 0 ≤ env.myCpu)

include h hcpu

theorem vecFillScalar_follows (splat : Bool) (nblocks : ℕ) (st : VecState arch) (p : ℕ) :
    Follows I R (vecFillScalar splat nblocks st p) [] := by
  induction nblocks generalizing st p with
  | zero => exact Follows.pure st
  | succ nblocks ih =>
    exact (forLanes_follows fun l => h.write hcpu _ _).bind_of_nil fun _ => ih _ _

theorem vecCheckFwdScalar_follows (splat useForBadram : Bool) (nblocks : ℕ) (st : VecState arch)
    (p : ℕ) :
    Follows I R (vecCheckFwdScalar env splat useForBadram nblocks st p) [] := by
  induction nblocks generalizing st p with
  | zero => exact Follows.pure st
  | succ nblocks ih =>
    exact (forLanes_follows fun l => (checkWord_follows h hcpu _ _ _).bind_of_nil fun _ =>
      h.write hcpu _ _).bind_of_nil fun _ => ih _ _

theorem checkBlockRev_follows (useForBadram : Bool) (st : VecState arch) (q : ℕ) :
    Follows I R (checkBlockRev env useForBadram st q) [] :=
  forLanes_follows fun _ => (checkWord_follows h hcpu _ _ _).bind_of_nil fun _ => h.write hcpu _ _

theorem vecCheckRevScalar_follows (splat useForBadram : Bool) (nblocks : ℕ) (st : VecState arch)
    (p : ℕ) :
    Follows I R (vecCheckRevScalar env splat useForBadram nblocks st p) [] := by
  induction nblocks generalizing st with
  | zero => exact Follows.pure st
  | succ nblocks ih => exact (checkBlockRev_follows h hcpu _ _ _).bind_of_nil fun _ => ih _

theorem compareBlock_follows (p : ℕ) (expect : VecState arch) :
    Follows I R (compareBlock env p expect) [] :=
  (forLanes_follows fun _ => h.record hcpu _ rfl).bind_of_nil fun _ =>
    Follows.get.bind_of_nil fun _ => Follows.pure _

theorem simdFill_follows (splat : Bool) (rest : ℕ) (st : VecState arch) (p : ℕ) :
    Follows I R (simdFill splat rest st p) [] := by
  induction rest generalizing st p with
  | zero =>
    exact (forLanes_follows fun l => h.write hcpu _ _).bind_of_nil fun _ => Follows.pure _
  | succ rest ih =>
    exact (forLanes_follows fun l => h.write hcpu _ _).bind_of_nil fun _ => ih _ _

/-- A block that is scanned is written where it matches. -/
theorem scanBlock_follows {α : Type} {p : ℕ} {expect value : VecState arch} {a b : α} :
    Follows I R (do
      let same ← compareBlock env p expect
      if same = true then do
        forLanes fun l => writeWord (p + l) (value l)
        pure a
      else pure b) [] :=
  (compareBlock_follows h hcpu _ _).bind_of_nil fun _ => Follows.ite
    (fun _ => (forLanes_follows fun _ => h.write hcpu _ _).bind_of_nil fun _ => Follows.pure a)
    fun _ => Follows.pure b

theorem simdScanFwd_follows (splat : Bool) (rest : ℕ) (st : VecState arch) (p : ℕ) :
    Follows I R (simdScanFwd env splat rest st p) [] := by
  induction rest generalizing st p with
  | zero => exact (scanBlock_follows h hcpu).bind_of_nil fun _ => Follows.pure _
  | succ rest ih =>
    exact (scanBlock_follows h hcpu).bind_of_nil fun r => Follows.ite
      (fun _ => (ih r.2 _).bind_of_nil fun _ => Follows.pure _) fun _ => Follows.pure _

theorem simdScanRev_follows (splat : Bool) (rest : ℕ) (st : VecState arch) (q : ℕ) :
    Follows I R (simdScanRev env splat rest st q) [] := by
  induction rest generalizing st q with
  | zero => exact (scanBlock_follows h hcpu).bind_of_nil fun _ => Follows.pure _
  | succ rest ih =>
    exact (scanBlock_follows h hcpu).bind_of_nil fun r => Follows.ite
      (fun _ => (ih r.2 _).bind_of_nil fun _ => Follows.pure _) fun _ => Follows.pure _

theorem simdCheckFwd_follows (splat useForBadram : Bool) (nblocks : ℕ) (st : VecState arch)
    (p : ℕ) : Follows I R (simdCheckFwd env splat useForBadram nblocks st p) [] := by
  induction hn : nblocks using Nat.strongRecOn generalizing nblocks st p with
  | _ n ih =>
    subst hn
    rw [simdCheckFwd]
    split
    · next hpos =>
      exact (simdScanFwd_follows h hcpu splat _ st p).bind_of_nil fun r => Follows.ite
        (fun _ => Follows.pure r.2) fun _ =>
          (vecCheckFwdScalar_follows h hcpu splat useForBadram 1 r.2
          _).bind_of_nil fun st => ih (nblocks - r.1 - 1) (by omega) _ st _ rfl
    · exact Follows.pure st

theorem simdCheckRev_follows (splat useForBadram : Bool) (nblocks : ℕ) (st : VecState arch)
    (q : ℕ) : Follows I R (simdCheckRev env splat useForBadram nblocks st q) [] := by
  induction hn : nblocks using Nat.strongRecOn generalizing nblocks st q with
  | _ n ih =>
    subst hn
    rw [simdCheckRev]
    split
    · next hpos =>
      exact (simdScanRev_follows h hcpu splat _ st q).bind_of_nil fun r => Follows.ite
        (fun _ => Follows.pure r.2) fun _ => (checkBlockRev_follows h hcpu useForBadram r.2
          _).bind_of_nil fun _ => ih (nblocks - r.1 - 1) (by omega) _ r.2 _ rfl
    · exact Follows.pure st

theorem vecFill_follows (simdTier splat : Bool) (nblocks : ℕ) (st : VecState arch) (p : ℕ) :
    Follows I R (vecFill simdTier splat nblocks st p) [] :=
  Follows.ite (fun _ => simdFill_follows h hcpu splat _ st p)
    fun _ => vecFillScalar_follows h hcpu splat _ st p

theorem vecCheckFwd_follows (simdTier splat useForBadram : Bool) (nblocks : ℕ)
    (st : VecState arch) (p : ℕ) :
    Follows I R (vecCheckFwd env simdTier splat useForBadram nblocks st p) [] :=
  Follows.ite (fun _ => simdCheckFwd_follows h hcpu splat useForBadram _ st p) fun _ =>
    vecCheckFwdScalar_follows h hcpu splat useForBadram _ st p

theorem vecCheckRev_follows (simdTier splat useForBadram : Bool) (nblocks : ℕ)
    (st : VecState arch) (p : ℕ) :
    Follows I R (vecCheckRev env simdTier splat useForBadram nblocks st p) [] :=
  Follows.ite (fun _ => simdCheckRev_follows h hcpu splat useForBadram _ st _) fun _ =>
    vecCheckRevScalar_follows h hcpu splat useForBadram _ st p

end

/-! ### Chunks with a body -/

/-- The number of words of the body of a chunk. -/
def Chunk.bodyLength (arch : Arch) (c : Chunk) : ℕ :=
  if c.stop < c.start then 0 else (splitChunk arch c).nbody

/-- The number of words of the body of the chunk of a CPU in a segment. -/
def bodyLength (arch : Arch) (cfg : ChunkConfig) (myCpu : ℤ) (seg : VmSegment) : ℕ :=
  match calculateChunk arch cfg myCpu seg (vecBytes arch) with
  | some c => c.bodyLength arch
  | none => 0

theorem body_count {x : Split} (hzero : x.nbody ≠ 0) :
    x.bstart + (x.nbody - 1) + 1 - x.bstart = x.nbody := by
  omega

/-- No chunk is computed with a division by zero, and no body that begins at address 0 is one word
longer than a number of blocks. -/
def BodiesOk (env : TestEnv arch) : Prop :=
  ∀ seg ∈ env.vmMap, ∃ c, calculateChunk arch env.cfg env.myCpu seg (vecBytes arch) = some c ∧
    (¬c.stop < c.start → 0 < (splitChunk arch c).bstart ∨
      ¬env.spinSize ∣ (splitChunk arch c).bstart + ((splitChunk arch c).nbody - 1))

theorem BodiesOk.of_segmentOk (hsegs : ∀ seg ∈ env.vmMap,
      SegmentOk arch seg ∧ seg.start + vecBytes arch ≤ 2 ^ arch.bits ∨ SegmentEmpty arch seg)
    (hindex : env.cfg.IndexOk env.myCpu) : BodiesOk env := by
  intro seg hseg
  obtain ⟨hok, htop⟩ | hempty := hsegs seg hseg
  · obtain ⟨c, hc, hor⟩ := inSegment_calculateChunk hok (alignOk_vecBytes arch) hindex
    refine ⟨c, hc, fun hle => .inl ?_⟩
    have hin := hor.resolve_left hle
    have hstart : c.start + vecBytes arch ≤ 2 ^ arch.bits := by
      obtain hroom | hroom := hin.room
      · rwa [hroom]
      · exact hroom.trans hok.lt
    refine Nat.lt_of_lt_of_le ?_ (splitOk_splitChunk hle hstart).start_le
    exact Nat.div_pos (Nat.le_of_dvd (hok.start_pos.trans_le hin.start_le) hin.start_dvd)
      arch.wordBytes_pos
  · obtain ⟨c, hc, hlt⟩ := calculateChunk_of_empty (vecBytes arch) hempty hindex
    exact ⟨c, hc, fun hle => absurd hlt hle⟩

variable {seg : VmSegment} {c : Chunk}

theorem bodyLength_eq {cfg : ChunkConfig} {myCpu : ℤ}
    (hc : calculateChunk arch cfg myCpu seg (vecBytes arch) = some c) :
    bodyLength arch cfg myCpu seg = c.bodyLength arch := by
  rw [bodyLength, hc]

/-- The blocks of the bodies of the chunks of a CPU. -/
def TestEnv.bodyBlocks (env : TestEnv arch) : ℕ :=
  env.sweepBlocks 1 (bodyLength arch env.cfg env.myCpu) (bodyLength arch env.cfg env.myCpu)

/-- The chunks of a CPU with a body, each of which has one tick. -/
def TestEnv.busBlocks (env : TestEnv arch) : ℕ :=
  env.sweepBlocks 1 (bodyLength arch env.cfg env.myCpu) fun _ => 0

section

variable {α : Type} {body : ℕ → TestM arch Unit}

theorem forWords_follows (hbody : ∀ q, Follows I R (body q) []) (first limit : ℕ) :
    Follows I R (forWords first limit body) [] :=
  Follows.foldlM_nil (fun q _ _ => hbody q) ()

theorem edges_follows (hbody : ∀ q, Follows I R (body q) []) (x : Split) :
    Follows I R (do lowerEdge x body; upperEdge x body) [] :=
  (forWords_follows hbody _ _).bind_of_nil fun _ => forWords_follows hbody _ _

theorem unlessDummy_follows {act : TestM arch Unit} (hact : 0 ≤ env.myCpu → Follows I R act []) :
    Follows I R (unlessDummy env act) [] :=
  Follows.ite hact fun _ => Follows.pure ()

/-- A chunk without a body is skipped with one tick. -/
theorem skipBody_follows (h : Account env I R) {words length : ℕ} (hwords : words = 0)
    (hlength : length = 0) (a : α) :
    Follows I R (do skipRange env 1; pure a) (tickWaits (env.countedBlocks 1 words length)) :=
  (skipEmpty_follows h hwords hlength).bind_nil fun _ => Follows.pure a

end

/-! ### Random sequences -/

section

variable {kernel : (nblocks : ℕ) → VecState arch → ℕ → TestM arch (VecState arch)}
  (hkernel : 0 ≤ env.myCpu → ∀ n st p, Follows I R (kernel n st p) [])

include hkernel

theorem vecBlockUp_follows (hcpu : 0 ≤ env.myCpu) (pe : ℕ) (r : ℕ × VecState arch) :
    Follows I R (vecBlockUp kernel pe r) [] :=
  (hkernel hcpu _ _ _).bind_of_nil fun _ => Follows.pure _

theorem vecBlockDown_follows (hcpu : 0 ≤ env.myCpu) (ps : ℕ) (r : ℕ × VecState arch) :
    Follows I R (vecBlockDown kernel ps r) [] :=
  (hkernel hcpu _ _ _).bind_of_nil fun _ => Follows.pure _

variable (h : Account env I R) (hbodies : BodiesOk env) {edge : ℕ → TestM arch Unit}
  (hedge : 0 ≤ env.myCpu → ∀ q, Follows I R (edge q) [])

include h hbodies hedge

theorem rngSegmentUp_follows (hseg : seg ∈ env.vmMap) (st : VecState arch) :
    Follows I R (rngSegmentUp env edge kernel st seg)
      (tickWaits (env.countedBlocks 1 (bodyLength arch env.cfg env.myCpu seg)
        (bodyLength arch env.cfg env.myCpu seg))) := by
  obtain ⟨c, hc, -⟩ := hbodies seg hseg
  refine chunkOf_follows h hc ?_
  rw [bodyLength_eq hc, Chunk.bodyLength]
  split
  · exact skipBody_follows h rfl rfl st
  · refine (unlessDummy_follows fun hcpu => edges_follows (hedge hcpu) _).bind_of_nil fun _ =>
      Follows.ite (fun hzero => skipBody_follows h hzero hzero st) fun hzero => ?_
    have hblocks := blocksUp_follows h (vecBlockUp_follows hkernel)
      ((splitChunk arch c).bstart + ((splitChunk arch c).nbody - 1))
      (splitChunk arch c).bstart ((splitChunk arch c).bstart, st)
    rw [body_count hzero] at hblocks
    rw [countedBlocks_of_le (Nat.one_le_iff_ne_zero.mpr hzero)]
    exact hblocks.bind_nil fun r => Follows.pure r.2

theorem rngSegmentDown_follows (hseg : seg ∈ env.vmMap) (st : VecState arch) :
    Follows I R (rngSegmentDown env edge kernel st seg)
      (tickWaits (env.countedBlocks 1 (bodyLength arch env.cfg env.myCpu seg)
        (bodyLength arch env.cfg env.myCpu seg))) := by
  obtain ⟨c, hc, hpos⟩ := hbodies seg hseg
  have hedges : ∀ first limit, Follows I R (unlessDummy env (forWords first limit edge)) [] :=
    fun first limit => unlessDummy_follows fun hcpu => forWords_follows (hedge hcpu) first limit
  refine chunkOf_follows h hc ?_
  rw [bodyLength_eq hc, Chunk.bodyLength]
  split
  · exact skipBody_follows h rfl rfl st
  · next hle =>
    refine (hedges _ _).bind_of_nil fun _ => Follows.ite (fun hzero =>
      (hedges _ _).bind_of_nil fun _ => skipBody_follows h hzero hzero st) fun hzero => ?_
    have hblocks := blocksDown_follows h (vecBlockDown_follows hkernel) (hpos hle)
      ((splitChunk arch c).bstart + ((splitChunk arch c).nbody - 1), st)
    rw [body_count hzero] at hblocks
    rw [countedBlocks_of_le (Nat.one_le_iff_ne_zero.mpr hzero)]
    exact hblocks.bind_nil fun r => (hedges _ _).bind_nil fun _ => Follows.pure r.2

end

/-- The waits of a fill and of two sweeps. -/
def rngWaits (n : ℕ) : List Wait :=
  tickWaits n ++ (flushWaits ++ (tickWaits n ++ (flushWaits ++ tickWaits n)))

theorem testMovInvRng_follows (h : Account env I R) (hbodies : BodiesOk env) (simdTier : Bool)
    (clock : Clock) (splatRound : Bool) :
    Follows I R (testMovInvRng env simdTier clock splatRound) (rngWaits env.bodyBlocks) := by
  refine Follows.bind (foldlM_follows (fun seg hseg st => rngSegmentUp_follows
    (fun hcpu => vecFill_follows h hcpu simdTier splatRound) h hbodies
    (fun hcpu q => h.write hcpu q _) hseg st) _) fun _ => ?_
  refine h.flush.bind fun _ => ?_
  refine Follows.bind (foldlM_follows (fun seg hseg st => rngSegmentUp_follows
    (fun hcpu => vecCheckFwd_follows h hcpu simdTier splatRound true) h hbodies
    (fun hcpu q => checkWrite_follows h hcpu q _ _) hseg st) _) fun _ => ?_
  refine h.flush.bind fun _ => ?_
  refine (foldlM_reverse_follows (fun seg hseg st => rngSegmentDown_follows
    (fun hcpu => vecCheckRev_follows h hcpu simdTier splatRound true) h hbodies
    (fun hcpu q => checkWrite_follows h hcpu q _ _) hseg st) _).bind_nil fun _ => Follows.pure ()

/-! ### Bus stress -/

section

variable (h : Account env I R)

include h

section

variable (hcpu : 0 ≤ env.myCpu)

include hcpu

theorem burstLoop_follows (simdTier : Bool) (burstBlocks : ℕ) (hburst : 0 < burstBlocks)
    (pw nw : ℕ) (stw : VecState arch) (pr nr : ℕ) (str : VecState arch) :
    Follows I R (burstLoop env simdTier burstBlocks hburst pw nw stw pr nr str) [] := by
  induction hn : nw + nr using Nat.strongRecOn generalizing pw nw stw pr nr str with
  | _ n ih =>
    rw [burstLoop]
    split
    · next hpos =>
      have hrest : ∀ stw str, Follows I R (burstLoop env simdTier burstBlocks hburst
          (pw + (if nw < burstBlocks then nw else burstBlocks) * vecLanes)
          (nw - if nw < burstBlocks then nw else burstBlocks) stw
          (pr + (if nr < burstBlocks then nr else burstBlocks) * vecLanes)
          (nr - if nr < burstBlocks then nr else burstBlocks) str) [] :=
        fun stw str => ih _ (by split <;> split <;> omega) _ _ stw _ _ str rfl
      refine Follows.ite (fun _ => (vecFill_follows h hcpu _ _ _ _ _).bind_of_nil fun stw => ?_)
        fun _ => (Follows.pure _).bind_of_nil fun stw => ?_
      all_goals
        exact Follows.ite
          (fun _ => (vecCheckFwd_follows h hcpu _ _ _ _ _ _).bind_of_nil (hrest stw))
          fun _ => (Follows.pure _).bind_of_nil (hrest stw)
    · exact Follows.pure ()

theorem busBursts_follows (simdTier : Bool) (passNum iteration : ℕ) (second : Bool)
    (burstBlocks : ℕ) (hburst : 0 < burstBlocks) (x : Split) (j : ℕ) :
    Follows I R
      (busBursts env simdTier passNum iteration second burstBlocks hburst x j) [] := by
  have hinterleave : ∀ pw nw stw pr nr (str : Option (VecState arch)), Follows I R
      (burstInterleave env simdTier burstBlocks hburst pw nw stw pr nr str) [] := by
    intro pw nw stw pr nr str
    cases str with
    | none => exact burstLoop_follows h hcpu _ _ _ _ _ _ _ _ _
    | some str => exact burstLoop_follows h hcpu _ _ _ _ _ _ _ _ _
  exact Follows.ite (fun _ => hinterleave _ _ _ _ _ _) fun _ => hinterleave _ _ _ _ _ _

theorem busEdge_follows (iteration : ℕ) (prev cur : Testword arch) (q : ℕ) :
    Follows I R (busEdge env iteration prev cur q) [] :=
  Follows.ite
    (fun _ => (checkWord_follows h hcpu q prev false).bind_of_nil fun _ => h.write hcpu q cur)
    fun _ => (readWord_follows q).bind_of_nil fun _ => h.write hcpu q cur

end

/-- Whatever is in it, a segment with a body has one tick. -/
theorem busSegment_follows (hbodies : BodiesOk env) (simdTier : Bool) (passNum iteration : ℕ)
    (second : Bool) (burstBlocks : ℕ) (hburst : 0 < burstBlocks) (j : ℕ)
    (hseg : seg ∈ env.vmMap) :
    Follows I R (busSegment env simdTier passNum iteration second burstBlocks hburst (seg, j))
      (tickWaits (env.countedBlocks 1 (bodyLength arch env.cfg env.myCpu seg) 0)) := by
  obtain ⟨c, hc, -⟩ := hbodies seg hseg
  have hskip : ∀ {words}, words = 0 →
      Follows I R (skipRange env 1) (tickWaits (env.countedBlocks 1 words 0)) := by
    intro words hwords
    exact skipEmpty_follows h hwords rfl
  rw [bodyLength_eq hc]
  refine chunkOf_follows h hc (Follows.ite (fun hlt => hskip (if_pos hlt)) fun hle => ?_)
  rw [Chunk.bodyLength, if_neg hle]
  have hbody : Follows I R
      (if (splitChunk arch c).nbody = 0 then skipRange env 1
      else oneBlock env (fun _ _ => busBursts env simdTier passNum iteration second burstBlocks
        hburst (splitChunk arch c) j) 0 ())
      (tickWaits (env.countedBlocks 1 (splitChunk arch c).nbody 0)) := by
    refine Follows.ite hskip fun hzero => ?_
    rw [countedBlocks_of_le (Nat.one_le_iff_ne_zero.mpr hzero),
      blockCount_of_lt (Nat.zero_le _) env.spinSize_pos]
    exact oneBlock_follows h fun hcpu => busBursts_follows h hcpu _ _ _ _ _ _ _ _
  exact Follows.ite (fun _ => (unlessDummy_follows fun hcpu =>
    edges_follows (busEdge_follows h hcpu _ _ _) _).bind_of_nil fun _ => hbody) fun _ => hbody

theorem doSweep_follows (hbodies : BodiesOk env) (simdTier : Bool) (passNum iteration : ℕ)
    (second : Bool) (burstBlocks : ℕ) (hburst : 0 < burstBlocks) :
    Follows I R (doSweep env simdTier passNum iteration second burstBlocks hburst)
      (tickWaits env.busBlocks) := by
  have hsweep : Follows I R
      (doSweep env simdTier passNum iteration second burstBlocks hburst)
      (env.vmMap.zipIdx.flatMap fun seg =>
        tickWaits (env.countedBlocks 1 (bodyLength arch env.cfg env.myCpu seg.1) 0)) :=
    Follows.foldlM (fun seg hseg _ => busSegment_follows h hbodies simdTier passNum iteration second
      burstBlocks hburst seg.2 (List.fst_mem_of_mem_zipIdx hseg)) ()
  have hmap : env.vmMap.map (fun seg =>
        env.countedBlocks 1 (bodyLength arch env.cfg env.myCpu seg) 0) =
      env.vmMap.zipIdx.map fun seg =>
        env.countedBlocks 1 (bodyLength arch env.cfg env.myCpu seg.1) 0 := by
    nth_rewrite 1 [← List.zipIdx_map_fst 0 env.vmMap]
    exact List.map_map
  rw [flatMap_tickWaits] at hsweep
  rwa [TestEnv.busBlocks, TestEnv.sweepBlocks, hmap]

end

/-- The waits of two sweeps over `n` segments, with a flush behind each. -/
def busWaits (n : ℕ) : List Wait := tickWaits n ++ (flushWaits ++ (tickWaits n ++ flushWaits))

theorem testBusStress_follows (h : Account env I R) (hbodies : BodiesOk env) (simdTier : Bool)
    (passNum iteration : ℕ) :
    Follows I R (testBusStress env simdTier passNum iteration) (busWaits env.busBlocks) :=
  (doSweep_follows h hbodies _ _ _ _ _ _).bind fun _ => h.flush.bind fun _ =>
    (doSweep_follows h hbodies _ _ _ _ _ _).bind fun _ => h.flush

/-! ### Bit fade -/

theorem fadeDelay_follows (h : Account env I R) (sleepSecs : ℕ) :
    Follows I R (fadeDelay env sleepSecs) (tickWaits sleepSecs) := by
  induction sleepSecs with
  | zero => exact Follows.pure ()
  | succ n ih =>
    have hcount := h.countTick
    rw [fadeDelay, Nat.add_comm, tickWaits_add]
    split at hcount
    · next hneg =>
      refine hcount.bind fun _ => ?_
      rwa [if_pos hneg]
    · next hcpu =>
      refine hcount.bind_of_nil fun _ => ?_
      rw [if_neg hcpu]
      exact (h.doTick (not_lt.mp hcpu)).bind fun _ => ih

/-- The waits of a stage of bit fade. -/
def fadeWaits (lastStage : ℤ) (stage sleepSecs n : ℕ) : List Wait :=
  match stage % 3 with
  | 0 => tickWaits n ++ flushWaits
  | 1 => if (stage : ℤ) ≠ lastStage then tickWaits sleepSecs else []
  | _ => tickWaits n

theorem testBitFade_follows (h : Account env I R) (hchunks : ChunksOk env arch.wordBytes)
    (passNum : ℕ) (lastStage : ℤ) (stage sleepSecs : ℕ) :
    Follows I R (testBitFade env passNum lastStage stage sleepSecs)
      (fadeWaits lastStage stage sleepSecs (env.chunkBlocks arch.wordBytes 1)) := by
  rw [testBitFade]
  rcases hstage : stage % 3 with _ | _ | k <;> simp only [hstage, fadeWaits]
  · exact (sweepUp_follows h hchunks (fun hcpu p _ => h.write hcpu p _) ()).bind fun _ => h.flush
  · split
    · exact fadeDelay_follows h sleepSecs
    · exact Follows.pure ()
  · exact sweepUp_follows h hchunks (fun hcpu p _ => checkWord_follows h hcpu p _ true) ()

end Memtest
