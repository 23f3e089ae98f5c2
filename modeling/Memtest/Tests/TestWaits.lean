import Memtest.Tests.RunTest
import Mathlib.Algebra.BigOperators.Ring.List
import Mathlib.Algebra.Ring.Nat
import Mathlib.Data.Nat.Cast.Basic

/-!
# The waits of the tests

What a test does to its words has no waits in it, so the waits of a test are those of its sweeps,
one tick for each block, and those of the flushes between them.
-/

namespace Memtest

open Hoare

variable {arch : Arch} {α β : Type} {env : TestEnv arch}
  {I : List Wait → TestState arch → Prop} {R : Exit → TestState arch → Prop}

/-- The same waits over and over. -/
def repeatWaits (n : ℕ) (waits : List Wait) : List Wait := (List.range n).flatMap fun _ => waits

@[simp] theorem length_repeatWaits (n : ℕ) (waits : List Wait) :
    (repeatWaits n waits).length = n * waits.length := by
  simp [repeatWaits]

theorem repeatWaits_tickWaits (m n : ℕ) : repeatWaits m (tickWaits n) = tickWaits (m * n) := by
  rw [repeatWaits, flatMap_tickWaits]
  simp

/-- A loop that is repeated `n` times. -/
theorem repeat_follows {n : ℕ} {f : α → ℕ → TestM arch α} {waits : List Wait}
    (hf : ∀ i a, Follows I R (f a i) waits) (a : α) :
    Follows I R ((List.range n).foldlM f a) (repeatWaits n waits) :=
  Follows.foldlM (fun i _ a => hf i a) a

/-! ### Moving inversions -/

section

variable (h : Account env I R)

include h

theorem checkWrite_follows (hcpu : 0 ≤ env.myCpu) (p : ℕ) (expect value : Testword arch) :
    Follows I R (checkWrite env p expect value) [] :=
  (checkWord_follows h hcpu p expect true).bind_of_nil fun _ => h.write hcpu p value

theorem fillBlock_follows (hcpu : 0 ≤ env.myCpu) (value : Testword arch) (pe : ℕ)
    (r : ℕ × Unit) : Follows I R (fillBlock value pe r) [] := by
  have hstore : ∀ length p, Follows I R (storeWords value p length) [] := by
    intro length
    induction length with
    | zero => exact fun p => Follows.pure ()
    | succ length ih => exact fun p => (h.write hcpu p value).bind_of_nil fun _ => ih (p + 1)
  exact (hstore _ _).bind_of_nil fun _ => Follows.pure _

end

/-- The waits of a fill and of `iterations` rounds of an upward and a downward sweep. -/
def movInvWaits (iterations n : ℕ) : List Wait :=
  tickWaits n ++ repeatWaits iterations (flushWaits ++ (tickWaits n ++ (flushWaits ++ tickWaits n)))

section

variable (h : Account env I R) (hchunks : ChunksOk env arch.wordBytes)

include h hchunks

theorem testMovInvFixed_follows (iterations : ℕ) (pattern1 pattern2 : Testword arch) :
    Follows I R (testMovInvFixed env iterations pattern1 pattern2)
      (movInvWaits iterations (env.chunkBlocks arch.wordBytes 1)) := by
  refine Follows.bind (foldlM_follows (fun seg hseg a => ?_) ()) fun _ =>
    repeat_follows (fun _ _ => ?_) ()
  · obtain ⟨c, hc, -⟩ := hchunks seg hseg
    rw [chunkLength_eq hc]
    exact segmentUp_follows h hc (fun hcpu => fillBlock_follows h hcpu pattern1) a
  · refine h.flush.bind fun _ =>
      (sweepUp_follows h hchunks (fun hcpu p _ => checkWrite_follows h hcpu p _ _) ()).bind fun _ =>
        h.flush.bind fun _ => ?_
    exact sweepDown_follows h hchunks (fun hcpu p _ => checkWrite_follows h hcpu p _ _) ()

theorem testMovInvWalk1_follows (iterations offset : ℕ) (inverse : Bool) :
    Follows I R (testMovInvWalk1 env iterations offset inverse)
      (movInvWaits iterations (env.chunkBlocks arch.wordBytes 1)) := by
  have hbody : 0 ≤ env.myCpu → ∀ p (expect value next : Testword arch),
      Follows I R (do checkWrite env p expect value; pure next) [] :=
    fun hcpu p expect value next =>
      (checkWrite_follows h hcpu p expect value).bind_of_nil fun _ => Follows.pure next
  refine Follows.bind (sweepUp_follows h hchunks (fun hcpu p pattern =>
    (h.write hcpu p pattern).bind_of_nil fun _ => Follows.pure _) _) fun _ =>
      repeat_follows (fun _ _ => ?_) ()
  refine h.flush.bind fun _ =>
    (sweepUp_follows h hchunks (fun hcpu p _ => hbody hcpu p _ _ _) _).bind fun _ =>
      h.flush.bind fun pattern => ?_
  exact (sweepDown_follows h hchunks (fun hcpu p _ => hbody hcpu p _ _ _) _).bind_nil fun _ =>
    Follows.pure ()

end

/-! ### Every n-th location -/

section

variable {n : ℕ} {hn : 0 < n} {seg : VmSegment} {c : Chunk}

theorem doWhileStride_follows {body : ℕ → TestM arch Unit}
    (hbody : ∀ p, Follows I R (body p) []) (p pe : ℕ) :
    Follows I R (doWhileStride n hn body p pe) [] := by
  induction hm : pe - p using Nat.strongRecOn generalizing p with
  | _ m ih =>
    rw [doWhileStride]
    refine (hbody p).bind_of_nil fun _ => Follows.ite (fun hle => ?_) fun _ => Follows.pure p
    exact ih (pe - (p + n)) (by omega) (p + n) rfl

/-- A chunk is too short if it has less than `n` words. -/
theorem tooShort_iff (hc : ¬c.stop < c.start → arch.wordBytes ∣ c.start ∧ arch.wordBytes ∣ c.stop)
    (hn : 0 < n) : tooShort arch n c ↔ c.length arch < n := by
  have hword := arch.wordBytes_pos
  rw [tooShort, Chunk.length]
  split
  · next hlt =>
    have hneg : ((c.stop : ℤ) - c.start) / arch.wordBytes < 0 :=
      Int.ediv_neg_of_neg_of_pos (by omega) (by omega)
    omega
  · next hle =>
    obtain ⟨⟨a, ha⟩, ⟨b, hb⟩⟩ := hc hle
    have hdiff : ((c.stop : ℤ) - c.start) / arch.wordBytes = b - a := by
      rw [ha, hb]
      push_cast
      rw [← Int.mul_sub, Int.mul_ediv_cancel_left _ (by omega)]
    rw [hdiff, ha, hb, Nat.mul_div_cancel_left a hword, Nat.mul_div_cancel_left b hword]
    omega

/-- The blocks of the chunks of a CPU in a sweep that stops `n` words short of their ends. -/
def TestEnv.sparseBlocks (env : TestEnv arch) (n : ℕ) : ℕ :=
  env.sweepBlocks n (chunkLength arch env.cfg env.myCpu arch.wordBytes) fun seg =>
    chunkLength arch env.cfg env.myCpu arch.wordBytes seg - n

variable (h : Account env I R)

include h

/-- A chunk of less than `n` words is skipped with as many ticks as one block has. -/
theorem unlessShort_follows {chunkAlign : ℕ} (hchunks : ChunksOk env chunkAlign)
    (hseg : seg ∈ env.vmMap) (hn : 0 < n) (hspin : n ≤ env.spinSize) (k : ℕ)
    {f : Chunk → TestM arch Unit}
    (hf : ∀ c : Chunk, Follows I R (f c) (tickWaits
      (blockCount env.spinSize (c.stop / arch.wordBytes + 1 - c.start / arch.wordBytes) * k))) :
    Follows I R
      (chunkOf env chunkAlign seg >>= fun c => if tooShort arch n c then skipRange env k else f c)
      (tickWaits (env.countedBlocks n (chunkLength arch env.cfg env.myCpu chunkAlign seg)
        (chunkLength arch env.cfg env.myCpu chunkAlign seg) * k)) := by
  obtain ⟨c, hc, hok⟩ := hchunks seg hseg
  refine chunkOf_follows h hc ?_
  have hshort := tooShort_iff (fun hle => ⟨(hok hle).1, (hok hle).2.1⟩) hn
  rw [chunkLength_eq hc]
  split
  · next hlt => exact skip_follows h (hshort.mp hlt) ((hshort.mp hlt).le.trans hspin) k
  · next hlt =>
    have hlong := not_lt.mp (hshort.not.mp hlt)
    have hle : ¬c.stop < c.start := fun hempty => by
      rw [length_eq_zero hempty] at hlong
      omega
    rw [countedBlocks_of_le hlong, length_of_le hle]
    exact hf c

variable (hchunks : ChunksOk env arch.wordBytes)

include hchunks

theorem sparseSegment_follows (hseg : seg ∈ env.vmMap) (offset : ℕ) {body : ℕ → TestM arch Unit}
    (hbody : 0 ≤ env.myCpu → ∀ p, Follows I R (body p) []) :
    Follows I R (sparseSegment env n hn offset body seg) (tickWaits
      (env.countedBlocks n (chunkLength arch env.cfg env.myCpu arch.wordBytes seg)
        (chunkLength arch env.cfg env.myCpu arch.wordBytes seg - n))) := by
  obtain ⟨c, hc, hok⟩ := hchunks seg hseg
  refine chunkOf_follows h hc ?_
  have hshort := tooShort_iff (fun hle => ⟨(hok hle).1, (hok hle).2.1⟩) hn
  rw [chunkLength_eq hc]
  split
  · next hlt =>
    have hlt' := hshort.mp hlt
    have hzero : c.length arch - n = 0 := Nat.sub_eq_zero_of_le hlt'.le
    have hskip := skip_follows h hlt' (hzero.trans_le (Nat.zero_le env.spinSize)) 1
    rwa [Nat.mul_one] at hskip
  · next hlt =>
    have hlong := not_lt.mp (hshort.not.mp hlt)
    have hle : ¬c.stop < c.start := fun hempty => by
      rw [length_eq_zero hempty] at hlong
      omega
    -- the end of the sweep is `n` words below that of the chunk, but not below address 0
    have hcount : blockCount env.spinSize (c.length arch - n) =
        blockCount env.spinSize (c.stop / arch.wordBytes - n + 1 - c.start / arch.wordBytes) := by
      have hpos := env.spinSize_pos
      have hlength : c.length arch =
          c.stop / arch.wordBytes + 1 - c.start / arch.wordBytes := length_of_le hle
      generalize c.start / arch.wordBytes = first, c.stop / arch.wordBytes = last at hlength
      obtain heq | hlt := hlong.eq_or_lt
      · rw [blockCount_of_lt (by omega) hpos, blockCount_of_lt (by omega) hpos]
      · congr 1
        omega
    rw [countedBlocks_of_le hlong, hcount]
    exact (blocksUp_follows h (fun hcpu pe p => doWhileStride_follows (hbody hcpu) p pe)
      _ _ _).bind_nil fun _ => Follows.pure ()

theorem restSegment_follows (hspin : n ≤ env.spinSize) (hn : 0 < n) (hseg : seg ∈ env.vmMap)
    (offset : ℕ) (pattern2 : Testword arch) :
    Follows I R (restSegment env n offset pattern2 seg) (tickWaits
      (env.countedBlocks n (chunkLength arch env.cfg env.myCpu arch.wordBytes seg)
        (chunkLength arch env.cfg env.myCpu arch.wordBytes seg))) := by
  rw [← Nat.mul_one (env.countedBlocks _ _ _)]
  refine unlessShort_follows h hchunks hseg hn hspin 1 fun c => ?_
  rw [Nat.mul_one]
  refine (blocksUp_follows h (fun hcpu pe r => Follows.doWhileUp (fun p k => ?_) _ _ _)
    _ _ _).bind_nil fun _ => Follows.pure ()
  exact Follows.ite (fun _ => (h.write hcpu p pattern2).bind_of_nil fun _ =>
    Follows.pure _) fun _ => Follows.pure _

/-- The waits of a fill of the sparse words, of two fills of the others, and of a check. -/
def moduloWaits (iterations sparse rest : ℕ) : List Wait :=
  tickWaits sparse ++ (repeatWaits iterations (tickWaits rest) ++ (flushWaits ++ tickWaits sparse))

theorem testModuloN_follows (hspin : n ≤ env.spinSize) (iterations : ℕ)
    (pattern1 pattern2 : Testword arch) (offset : ℕ) :
    Follows I R (testModuloN env iterations pattern1 pattern2 n hn offset)
      (moduloWaits iterations (env.sparseBlocks n) (env.chunkBlocks arch.wordBytes n)) := by
  refine Follows.bind (foldlM_follows (fun seg hseg _ => sparseSegment_follows h hchunks hseg
    offset fun hcpu p => h.write hcpu p pattern1) ()) fun _ => ?_
  refine Follows.bind (repeat_follows (fun _ _ => foldlM_follows (fun seg hseg _ =>
    restSegment_follows h hchunks hspin hn hseg offset pattern2) ()) ()) fun _ => ?_
  refine h.flush.bind fun _ => ?_
  exact foldlM_follows (fun seg hseg _ => sparseSegment_follows h hchunks hseg offset
    fun hcpu p => checkWord_follows h hcpu p pattern1 true) ()

end

/-! ### Moving blocks -/

section

variable {seg : VmSegment}

/-- The waits of a fill, of the moves and of a check. -/
def blockMoveWaits (iterations n : ℕ) : List Wait :=
  tickWaits n ++ (flushWaits ++ (tickWaits (n * iterations) ++ (flushWaits ++ tickWaits n)))

/-- Blocks with `k` ticks each. -/
theorem forBlocks_follows {body : ℕ → TestM arch Unit} {k : ℕ}
    (hbody : ∀ pe, Follows I R (body pe) (tickWaits k)) (stop pe : ℕ) :
    Follows I R (forBlocks env stop body pe)
      (tickWaits (blockCount env.spinSize (stop + 1 - pe) * k)) := by
  have hpos := env.spinSize_pos
  induction hn : stop - pe using Nat.strongRecOn generalizing pe with
  | _ n ih =>
    rw [forBlocks]
    split
    · next hle =>
      rw [show stop + 1 - pe = stop + 1 - (pe + env.spinSize) + env.spinSize by omega,
        blockCount_add hpos (by omega), Nat.add_mul, Nat.one_mul, tickWaits_add,
        show pe + (env.spinSize - 1) + 1 = pe + env.spinSize by omega]
      exact (hbody _).bind fun _ => ih _ (by omega) _ rfl
    · rw [blockCount_of_lt (by omega) hpos, Nat.one_mul]
      exact hbody stop

variable (h : Account env I R)

include h

theorem moveBlock_follows (hcpu : 0 ≤ env.myCpu) (p halfLength : ℕ) :
    Follows I R (moveBlock env p halfLength) [] := by
  have hmovs : ∀ src dst count, Follows I R (repMovs env src dst count) [] := by
    intro src dst count
    induction count generalizing src dst with
    | zero => exact Follows.pure src
    | succ count ih =>
      exact (readWord_follows src).bind_of_nil fun value =>
        (h.write hcpu dst value).bind_of_nil fun _ => ih _ _
  exact (hmovs _ _ _).bind_of_nil fun _ => (hmovs _ _ _).bind_of_nil fun _ =>
    (hmovs _ _ _).bind_of_nil fun _ => Follows.pure ()

variable (hchunks : ChunksOk env (16 * arch.wordBytes)) (hspin : 16 ≤ env.spinSize)

include hchunks hspin

theorem fillMoveSegment_follows (hseg : seg ∈ env.vmMap) :
    Follows I R (fillMoveSegment env seg) (tickWaits
      (env.countedBlocks 16 (chunkLength arch env.cfg env.myCpu (16 * arch.wordBytes) seg)
        (chunkLength arch env.cfg env.myCpu (16 * arch.wordBytes) seg))) := by
  have hwords : 0 ≤ env.myCpu → ∀ (values : List (Testword arch)) p,
      Follows I R (writeWords p values) [] := by
    intro hcpu values
    induction values with
    | nil => exact fun p => Follows.pure ()
    | cons value values ih =>
      exact fun p => (h.write hcpu p value).bind_of_nil fun _ => ih (p + 1)
  rw [← Nat.mul_one (env.countedBlocks _ _ _)]
  refine unlessShort_follows h hchunks hseg (by decide) hspin 1 fun c => ?_
  rw [Nat.mul_one]
  refine (blocksUp_follows h (fun hcpu pe p => ?_) _ _ _).bind_nil fun _ => Follows.pure ()
  exact (Follows.doWhileBy (fun q pattern1 => (hwords hcpu _ q).bind_of_nil fun _ =>
    Follows.pure _) p pe _).bind_of_nil fun r => Follows.pure r.1

theorem checkMoveSegment_follows (hseg : seg ∈ env.vmMap) :
    Follows I R (checkMoveSegment env seg) (tickWaits
      (env.countedBlocks 16 (chunkLength arch env.cfg env.myCpu (16 * arch.wordBytes) seg)
        (chunkLength arch env.cfg env.myCpu (16 * arch.wordBytes) seg))) := by
  rw [← Nat.mul_one (env.countedBlocks _ _ _)]
  refine unlessShort_follows h hchunks hseg (by decide) hspin 1 fun c => ?_
  rw [Nat.mul_one]
  refine (blocksUp_follows h (fun hcpu pe p => ?_) _ _ _).bind_nil fun _ => Follows.pure ()
  refine (Follows.doWhileBy (fun q _ => ?_) p pe _).bind_of_nil fun r => Follows.pure r.1
  exact (readWord_follows _).bind_of_nil fun _ => (readWord_follows _).bind_of_nil fun _ =>
    Follows.ite (fun _ => h.record hcpu _ rfl) fun _ => Follows.pure ()

/-- A block is moved `iterations` times, with a tick each, and so many ticks skip a short chunk. -/
theorem moveSegment_follows (hseg : seg ∈ env.vmMap) (iterations : ℕ) :
    Follows I R (moveSegment env iterations seg) (tickWaits
      (env.countedBlocks 16 (chunkLength arch env.cfg env.myCpu (16 * arch.wordBytes) seg)
        (chunkLength arch env.cfg env.myCpu (16 * arch.wordBytes) seg) * iterations)) := by
  refine unlessShort_follows h hchunks hseg (by decide) hspin iterations fun c => ?_
  refine forBlocks_follows (fun pe => ?_) _ _
  rw [← Nat.mul_one iterations, ← repeatWaits_tickWaits, Nat.mul_one]
  exact repeat_follows (fun _ _ => oneBlock_follows h fun hcpu => moveBlock_follows h hcpu _ _) ()

theorem testBlockMove_follows (iterations : ℕ) :
    Follows I R (testBlockMove env iterations)
      (blockMoveWaits iterations (env.chunkBlocks (16 * arch.wordBytes) 16)) := by
  generalize hn : env.chunkBlocks (16 * arch.wordBytes) 16 = n
  have hfill : Follows I R
      (env.vmMap.foldlM (fun _ seg => fillMoveSegment env seg) ()) (tickWaits n) := by
    rw [← hn]
    refine foldlM_follows ?_ ()
    exact fun seg hseg _ => fillMoveSegment_follows h hchunks hspin hseg
  have hmove : Follows I R
      (env.vmMap.foldlM (fun _ seg => moveSegment env iterations seg) ())
      (tickWaits (n * iterations)) := by
    rw [← hn, TestEnv.chunkBlocks, TestEnv.sweepBlocks, ← List.sum_map_mul_right]
    refine foldlM_follows ?_ ()
    exact fun seg hseg _ => moveSegment_follows h hchunks hspin hseg iterations
  have hcheck : Follows I R
      (env.vmMap.foldlM (fun _ seg => checkMoveSegment env seg) ()) (tickWaits n) := by
    rw [← hn]
    refine foldlM_follows ?_ ()
    exact fun seg hseg _ => checkMoveSegment_follows h hchunks hspin hseg
  exact hfill.bind fun _ => h.flush.bind fun _ => hmove.bind fun _ =>
    h.flush.bind fun _ => hcheck

end

end Memtest
