import Mathlib.Algebra.GroupWithZero.Nat
import Memtest.Lib.Trace
import Memtest.Tests.Words

/-!
# Waits on `run_barrier`

The CPUs that run a test together wait for each other at `run_barrier`: twice in every `do_tick`,
and around every flush of the caches. None of these waits depends on what a CPU finds in memory, so
the waits of a test are a list that is known before it begins, and all that can cut it short is
`bail`, which a CPU looks at behind the second wait of a `do_tick`. Between the two waits the master
has polled the keyboard, so all CPUs find the same.
-/

namespace Memtest

open Hoare

variable {arch : Arch} {α β : Type}

/-! ### Lists of waits -/

/-- A wait on `run_barrier`. Behind the second one of a `do_tick` there is a `BAILOUT`. -/
inductive Wait
  | plain
  | bailout
  deriving DecidableEq, Repr

/-- The waits of `n` calls of `do_tick`. -/
def tickWaits : ℕ → List Wait
  | 0 => []
  | n + 1 => .plain :: .bailout :: tickWaits n

/-- The waits of `flush_caches`, and of `flush_caches_all`. -/
def flushWaits : List Wait := [.plain, .plain]

/-- How many waits of a list a CPU gets to, after `n` calls of `do_tick`. -/
def countWaits (bail : ℕ → Bool) : ℕ → List Wait → ℕ
  | _, [] => 0
  | n, .plain :: waits => countWaits bail n waits + 1
  | n, .bailout :: waits => if bail (n + 1) = true then 1 else countWaits bail (n + 1) waits + 1

theorem tickWaits_add (m n : ℕ) : tickWaits (m + n) = tickWaits m ++ tickWaits n := by
  induction m with
  | zero => rw [Nat.zero_add, tickWaits, List.nil_append]
  | succ m ih => rw [Nat.succ_add, tickWaits, ih, tickWaits, List.cons_append, List.cons_append]

@[simp] theorem length_tickWaits (n : ℕ) : (tickWaits n).length = 2 * n := by
  induction n with
  | zero => rfl
  | succ n ih => rw [tickWaits, List.length_cons, List.length_cons, ih, Nat.mul_succ]

theorem flatMap_tickWaits {γ : Type} (l : List γ) (n : γ → ℕ) :
    l.flatMap (fun x => tickWaits (n x)) = tickWaits (l.map n).sum := by
  induction l with
  | nil => rfl
  | cons x l ih => rw [List.flatMap_cons, ih, List.map_cons, List.sum_cons, tickWaits_add]

section

variable (bail : ℕ → Bool) (n : ℕ) (waits : List Wait)

theorem countWaits_flush : countWaits bail n (flushWaits ++ waits) = countWaits bail n waits + 2 :=
  rfl

theorem countWaits_tick : countWaits bail n (tickWaits 1 ++ waits) =
    (if bail (n + 1) = true then 0 else countWaits bail (n + 1) waits) + 2 := by
  rw [tickWaits, tickWaits, List.cons_append, List.cons_append, List.nil_append, countWaits,
    countWaits]
  split <;> rfl

end

/-! ### What an assertion has to say -/

/-- The waits an event stands for. -/
def Event.waits : Event arch → ℕ
  | .flush | .tick => 2
  | .write _ _ | .check _ _ | .dataError _ _ _ _ | .addrError _ _ _ _ => 0

/-- An assertion about the waits to come that the single operations of a test respect. A dummy run
(`my_cpu < 0`) does not touch the memory. It counts a tick where another run makes one. -/
structure Account (env : TestEnv arch) (I : List Wait → TestState arch → Prop)
    (R : Exit → TestState arch → Prop) : Prop where
  record : 0 ≤ env.myCpu → ∀ e : Event arch, e.waits = 0 →
    Follows I R (modify fun s => s.record e) []
  write : 0 ≤ env.myCpu → ∀ p value, Follows I R (writeWord p value) []
  useSlot : ∀ i, 0 ≤ i → Follows I R (useCpuSlot i) []
  flush : Follows I R (flushCaches env) flushWaits
  countTick : Follows I R (modify TestState.countTick) (if env.myCpu < 0 then tickWaits 1 else [])
  doTick : 0 ≤ env.myCpu → Follows I R (doTick env) (tickWaits 1)

variable {env : TestEnv arch} {I : List Wait → TestState arch → Prop}
  {R : Exit → TestState arch → Prop}

theorem readWord_follows (p : ℕ) : Follows I R (readWord env p) [] :=
  Follows.get.bind_of_nil fun _ => Follows.pure _

section

variable (h : Account env I R)

include h

theorem checkWord_follows (hcpu : 0 ≤ env.myCpu) (p : ℕ) (expect : Testword arch)
    (useForBadram : Bool) : Follows I R (checkWord env p expect useForBadram) [] :=
  (h.record hcpu _ rfl).bind_of_nil fun _ => (readWord_follows p).bind_of_nil fun _ =>
    Follows.ite (fun _ => h.record hcpu _ rfl) fun _ => Follows.pure _

theorem skipRange_follows (n : ℕ) :
    Follows I R (skipRange env n) (tickWaits (if 0 ≤ env.myCpu then n else 0)) := by
  rw [skipRange]
  split
  · next hcpu =>
    induction n with
    | zero => exact Follows.pure ()
    | succ n ih =>
      rw [Nat.add_comm, tickWaits_add, Nat.add_comm]
      exact (h.doTick hcpu).bind fun _ => ih
  · exact Follows.pure ()

end

/-! ### What a test owes -/

/-- The waits of a test so far. -/
def TestState.waits (s : TestState arch) : ℕ := (s.log.map Event.waits).sum

@[simp] theorem waits_record (s : TestState arch) (e : Event arch) :
    (s.record e).waits = s.waits + e.waits := by
  simp [TestState.waits, TestState.record]

@[simp] theorem doTicks_record (s : TestState arch) (e : Event arch) :
    (s.record e).doTicks = s.doTicks := rfl

@[simp] theorem waits_doTick (s : TestState arch) : s.doTick.waits = s.waits + 2 :=
  waits_record s .tick

@[simp] theorem doTicks_doTick (s : TestState arch) : s.doTick.doTicks = s.doTicks + 1 := rfl

/-- With the waits so far, the waits to come and `base` other ones there will be `total` of them. -/
def Owes (bail : ℕ → Bool) (base total : ℕ) (waits : List Wait) (s : TestState arch) : Prop :=
  base + s.waits + countWaits bail s.doTicks waits = total

/-- The test has been left by a `BAILOUT`, after `total` waits. -/
def BailedOut (base total : ℕ) (e : Exit) (s : TestState arch) : Prop :=
  e = .bailout ∧ base + s.waits = total

section

variable {base total : ℕ}

theorem doTick_owes : Follows (Owes env.bail base total) (BailedOut base total) (doTick env)
    (tickWaits 1) := by
  intro ρ
  -- behind the second wait, before the look at `bail`
  refine (Triple.modify (Q := fun _ s => base + s.waits +
    (if env.bail s.doTicks = true then 0 else countWaits env.bail s.doTicks ρ) = total)
    fun s hs => ?_).bind fun _ => ?_
  · rw [Owes, countWaits_tick] at hs
    rw [waits_doTick, doTicks_doTick]
    omega
  · refine (Triple.get (Q := fun s (t : TestState arch) => s = t ∧ base + t.waits +
      (if env.bail t.doTicks = true then 0 else countWaits env.bail t.doTicks ρ) = total)
      fun s hs => ⟨rfl, hs⟩).bind fun s => Triple.ite (fun hbail => ?_) fun hbail => ?_
    · refine Triple.throw ?_
      rintro t ⟨rfl, ht⟩
      rw [if_pos hbail] at ht
      exact ⟨rfl, ht⟩
    · refine Triple.pure ?_
      rintro t ⟨rfl, ht⟩
      rwa [if_neg hbail] at ht

/-- A CPU makes the waits of its test. -/
theorem owes_account (hcpu : 0 ≤ env.myCpu) :
    Account env (Owes env.bail base total) (BailedOut base total) where
  record _ e he := Follows.modify fun ρ s h => by
    rw [Owes, waits_record, he]
    exact h
  write _ p value := Follows.modify fun ρ s h => by
    rw [Owes, TestState.waits, TestState.set, TestState.record, List.map_append, List.sum_append]
    exact h
  useSlot _ _ := Follows.modify fun _ _ h => h
  flush := by
    rw [flushCaches, if_pos hcpu]
    refine Follows.modify fun ρ s h => ?_
    rw [Owes, countWaits_flush] at h
    rw [Owes, waits_record, doTicks_record, Event.waits]
    omega
  countTick := by
    rw [if_neg (not_lt.mpr hcpu)]
    exact Follows.modify fun _ _ h => h
  doTick _ := doTick_owes

end

/-! ### Blocks -/

/-- The number of blocks of `spinSize` words that `n` words are split into. An empty range is
skipped with one tick, as if it were one block. -/
def blockCount (spinSize n : ℕ) : ℕ := (n - 1) / spinSize + 1

theorem blockCount_of_lt {spinSize n : ℕ} (h : n ≤ spinSize) (hpos : 0 < spinSize) :
    blockCount spinSize n = 1 := by
  rw [blockCount, Nat.div_eq_of_lt (by omega)]

theorem blockCount_add {spinSize n : ℕ} (hpos : 0 < spinSize) (hn : 0 < n) :
    blockCount spinSize (n + spinSize) = 1 + blockCount spinSize n := by
  rw [blockCount, blockCount, Nat.sub_add_comm hn, Nat.add_div_right _ hpos, Nat.add_comm 1]

/-- The blocks that are counted in a segment of which `words` words are in the chunk, when `length`
of them are split into blocks. With less than `least` words the segment is skipped, and a dummy run
does that without a tick. -/
def TestEnv.countedBlocks (env : TestEnv arch) (least words length : ℕ) : ℕ :=
  if env.myCpu < 0 ∧ words < least then 0 else blockCount env.spinSize length

section

variable {least words length : ℕ}

theorem countedBlocks_of_le (hle : least ≤ words) :
    env.countedBlocks least words length = blockCount env.spinSize length :=
  if_neg fun hshort => absurd hshort.2 (not_lt.mpr hle)

/-- A CPU counts a segment that it skips as one block. -/
theorem countedBlocks_of_nonneg (hcpu : 0 ≤ env.myCpu) :
    env.countedBlocks least words length = blockCount env.spinSize length :=
  if_neg fun hshort => absurd hshort.1 (not_lt.mpr hcpu)

/-- A segment that is skipped with `k` ticks. -/
theorem skip_follows (h : Account env I R) (hshort : words < least)
    (hlength : length ≤ env.spinSize) (k : ℕ) :
    Follows I R (skipRange env k) (tickWaits (env.countedBlocks least words length * k)) := by
  have hskip := skipRange_follows h k
  split at hskip
  · next hcpu =>
    rwa [countedBlocks_of_nonneg hcpu, blockCount_of_lt hlength env.spinSize_pos, Nat.one_mul]
  · next hcpu => rwa [TestEnv.countedBlocks, if_pos ⟨not_le.mp hcpu, hshort⟩, Nat.zero_mul]

theorem skipEmpty_follows (h : Account env I R) (hwords : words = 0) (hlength : length = 0) :
    Follows I R (skipRange env 1) (tickWaits (env.countedBlocks 1 words length)) := by
  have hskip := skip_follows h (hwords.trans_lt Nat.one_pos)
    (hlength.trans_le (Nat.zero_le env.spinSize)) 1
  rwa [Nat.mul_one] at hskip

end

section

variable (h : Account env I R)

include h

theorem oneBlock_follows {block : ℕ → β → TestM arch β} {pe : ℕ} {b : β}
    (hblock : 0 ≤ env.myCpu → Follows I R (block pe b) []) :
    Follows I R (oneBlock env block pe b) (tickWaits 1) := by
  have hcount := h.countTick
  split at hcount
  · next hneg =>
    refine hcount.bind_nil fun _ => ?_
    rw [if_pos hneg]
    exact Follows.pure b
  · next hcpu =>
    have hcpu' := not_lt.mp hcpu
    refine hcount.bind_of_nil fun _ => ?_
    rw [if_neg hcpu]
    exact (h.useSlot _ hcpu').bind_of_nil fun _ => (hblock hcpu').bind_of_nil fun b' =>
      (h.doTick hcpu').bind_nil fun _ => Follows.pure b'

/-- An upward loop over the blocks has a tick for each of them. -/
theorem blocksUp_follows {block : ℕ → β → TestM arch β}
    (hblock : 0 ≤ env.myCpu → ∀ pe b, Follows I R (block pe b) []) (stop pe : ℕ) (b : β) :
    Follows I R (blocksUp env stop block pe b)
      (tickWaits (blockCount env.spinSize (stop + 1 - pe))) := by
  have hpos := env.spinSize_pos
  induction hn : stop - pe using Nat.strongRecOn generalizing pe b with
  | _ n ih =>
    rw [Memtest.blocksUp]
    split
    · next hle =>
      rw [show stop + 1 - pe = stop + 1 - (pe + env.spinSize) + env.spinSize by omega,
        blockCount_add hpos (by omega), tickWaits_add,
        show pe + (env.spinSize - 1) + 1 = pe + env.spinSize by omega]
      exact (oneBlock_follows h fun hcpu => hblock hcpu _ b).bind fun b' => ih _ (by omega) _ b' rfl
    · rw [blockCount_of_lt (by omega) hpos]
      exact oneBlock_follows h fun hcpu => hblock hcpu stop b

/-- So has a downward loop above address 0. At address 0 it would miss a block of one word. -/
theorem blocksDown_follows {block : ℕ → β → TestM arch β}
    (hblock : 0 ≤ env.myCpu → ∀ ps b, Follows I R (block ps b) []) {start ps : ℕ}
    (hstart : 0 < start ∨ ¬env.spinSize ∣ ps) (b : β) :
    Follows I R (blocksDown env start block ps b)
      (tickWaits (blockCount env.spinSize (ps + 1 - start))) := by
  have hpos := env.spinSize_pos
  induction hn : ps using Nat.strongRecOn generalizing ps b with
  | _ n ih =>
    subst hn
    rw [Memtest.blocksDown]
    split
    · next hle =>
      obtain ⟨m, rfl⟩ : ∃ m, ps = m + env.spinSize := ⟨ps - env.spinSize, by omega⟩
      rw [Nat.dvd_add_self_right] at hstart
      have hne : m ≠ 0 := by
        rintro rfl
        exact hstart.elim (fun hpos => by omega) fun hdvd => hdvd (Nat.dvd_zero _)
      rw [show m + env.spinSize + 1 - start = m + 1 - start + env.spinSize by omega,
        blockCount_add hpos (by omega), tickWaits_add,
        show m + env.spinSize - (env.spinSize - 1) - 1 = m by omega]
      refine (oneBlock_follows h fun hcpu => hblock hcpu _ b).bind fun b' => ?_
      rw [if_pos hne]
      exact ih m (by omega) hstart b' rfl
    · rw [blockCount_of_lt (by omega) hpos]
      exact oneBlock_follows h fun hcpu => hblock hcpu start b

end

/-! ### Chunks -/

/-- The number of words of a chunk. -/
def Chunk.length (arch : Arch) (c : Chunk) : ℕ :=
  if c.stop < c.start then 0 else c.stop / arch.wordBytes + 1 - c.start / arch.wordBytes

/-- The number of words of the chunk of a CPU in a segment. -/
def chunkLength (arch : Arch) (cfg : ChunkConfig) (myCpu : ℤ) (chunkAlign : ℕ)
    (seg : VmSegment) : ℕ :=
  match calculateChunk arch cfg myCpu seg chunkAlign with
  | some c => c.length arch
  | none => 0

/-- The blocks of all segments together, when `length` words of a segment are tested. -/
def blockSum (spinSize : ℕ) (vmMap : List VmSegment) (length : VmSegment → ℕ) : ℕ :=
  (vmMap.map fun seg => blockCount spinSize (length seg)).sum

/-- The blocks that a sweep counts, which needs at least `least` words in a chunk. -/
def TestEnv.sweepBlocks (env : TestEnv arch) (least : ℕ) (words length : VmSegment → ℕ) : ℕ :=
  (env.vmMap.map fun seg => env.countedBlocks least (words seg) (length seg)).sum

theorem sweepBlocks_of_nonneg (hcpu : 0 ≤ env.myCpu) (least : ℕ) (words length : VmSegment → ℕ) :
    env.sweepBlocks least words length = blockSum env.spinSize env.vmMap length := by
  simp only [TestEnv.sweepBlocks, countedBlocks_of_nonneg hcpu, blockSum]

/-- No chunk is computed with a division by zero, and those that are not empty are whole words. One
that begins at address 0 is not one word longer than a number of blocks. -/
def ChunksOk (env : TestEnv arch) (chunkAlign : ℕ) : Prop :=
  ∀ seg ∈ env.vmMap, ∃ c, calculateChunk arch env.cfg env.myCpu seg chunkAlign = some c ∧
    (¬c.stop < c.start → arch.wordBytes ∣ c.start ∧ arch.wordBytes ∣ c.stop ∧
      (0 < c.start ∨ ¬env.spinSize ∣ c.stop / arch.wordBytes))

theorem ChunksOk.of_segmentOk {chunkAlign : ℕ}
    (hsegs : ∀ seg ∈ env.vmMap, SegmentOk arch seg ∨ SegmentEmpty arch seg)
    (halign : AlignOk arch chunkAlign) (hindex : env.cfg.IndexOk env.myCpu) :
    ChunksOk env chunkAlign := by
  intro seg hseg
  obtain hok | hempty := hsegs seg hseg
  · obtain ⟨c, hc, hor⟩ := inSegment_calculateChunk hok halign hindex
    refine ⟨c, hc, fun hle => ?_⟩
    have hin := hor.resolve_left hle
    exact ⟨hin.start_dvd, hin.stop_dvd, .inl (hok.start_pos.trans_le hin.start_le)⟩
  · obtain ⟨c, hc, hlt⟩ := calculateChunk_of_empty chunkAlign hempty hindex
    exact ⟨c, hc, fun hle => absurd hlt hle⟩

variable {chunkAlign : ℕ} {seg : VmSegment} {c : Chunk}

theorem chunkLength_eq {cfg : ChunkConfig} {myCpu : ℤ}
    (hc : calculateChunk arch cfg myCpu seg chunkAlign = some c) :
    chunkLength arch cfg myCpu chunkAlign seg = c.length arch := by
  rw [chunkLength, hc]

theorem length_eq_zero (hlt : c.stop < c.start) : c.length arch = 0 := if_pos hlt

theorem length_of_le (hle : ¬c.stop < c.start) :
    c.length arch = c.stop / arch.wordBytes + 1 - c.start / arch.wordBytes := if_neg hle

theorem length_pos (hle : ¬c.stop < c.start) : 0 < c.length arch := by
  rw [length_of_le hle]
  exact Nat.sub_pos_of_lt (Nat.lt_succ_of_le (Nat.div_le_div_right (not_lt.mp hle)))

section

variable (h : Account env I R)

include h

theorem chunkOf_follows {f : Chunk → TestM arch α} {waits : List Wait}
    (hc : calculateChunk arch env.cfg env.myCpu seg chunkAlign = some c)
    (hf : Follows I R (f c) waits) : Follows I R (chunkOf env chunkAlign seg >>= f) waits := by
  have hslot : 0 ≤ if env.myCpu < 0 then 0 else env.myCpu := by split <;> omega
  have htables : Follows I R (useChunkTables env) [] :=
    Follows.ite (fun _ => Follows.pure ()) fun _ => h.useSlot _ hslot
  rw [chunkOf, hc, bind_assoc]
  refine htables.bind_of_nil fun _ => ?_
  rwa [pure_bind]

/-- The loop body over the segments, upwards. An empty chunk is skipped with one tick. -/
theorem segmentUp_follows (hc : calculateChunk arch env.cfg env.myCpu seg chunkAlign = some c)
    {block : ℕ → ℕ × α → TestM arch (ℕ × α)}
    (hblock : 0 ≤ env.myCpu → ∀ pe r, Follows I R (block pe r) []) (a : α) :
    Follows I R (segmentUp env chunkAlign block a seg)
      (tickWaits (env.countedBlocks 1 (c.length arch) (c.length arch))) := by
  refine chunkOf_follows h hc ?_
  split
  · next hlt =>
    have hzero : c.length arch = 0 := length_eq_zero hlt
    exact (skipEmpty_follows h hzero hzero).bind_nil fun _ => Follows.pure a
  · next hle =>
    rw [countedBlocks_of_le (length_pos hle), length_of_le hle]
    exact (blocksUp_follows h hblock _ _ _).bind_nil fun r => Follows.pure r.2

theorem segmentDown_follows (hc : calculateChunk arch env.cfg env.myCpu seg chunkAlign = some c)
    (hstart : ¬c.stop < c.start → arch.wordBytes ∣ c.start ∧ arch.wordBytes ∣ c.stop ∧
      (0 < c.start ∨ ¬env.spinSize ∣ c.stop / arch.wordBytes))
    {block : ℕ → ℕ × α → TestM arch (ℕ × α)}
    (hblock : 0 ≤ env.myCpu → ∀ ps r, Follows I R (block ps r) []) (a : α) :
    Follows I R (segmentDown env chunkAlign block a seg)
      (tickWaits (env.countedBlocks 1 (c.length arch) (c.length arch))) := by
  refine chunkOf_follows h hc ?_
  split
  · next hlt =>
    have hzero : c.length arch = 0 := length_eq_zero hlt
    exact (skipEmpty_follows h hzero hzero).bind_nil fun _ => Follows.pure a
  · next hle =>
    obtain ⟨hdvd, -, hpos⟩ := hstart hle
    rw [countedBlocks_of_le (length_pos hle), length_of_le hle]
    refine (blocksDown_follows h hblock (hpos.imp_left fun hpos => ?_) _).bind_nil fun r =>
      Follows.pure r.2
    exact Nat.div_pos (Nat.le_of_dvd hpos hdvd) arch.wordBytes_pos

end

/-! ### Sweeps -/

/-- A loop over the segments that has a tick for each block. -/
theorem foldlM_follows {f : α → VmSegment → TestM arch α} {ticks : VmSegment → ℕ}
    (hf : ∀ seg ∈ env.vmMap, ∀ a, Follows I R (f a seg) (tickWaits (ticks seg))) (a : α) :
    Follows I R (env.vmMap.foldlM f a) (tickWaits (env.vmMap.map ticks).sum) := by
  have h := Follows.foldlM hf a
  rwa [flatMap_tickWaits] at h

theorem foldlM_reverse_follows {f : α → VmSegment → TestM arch α} {ticks : VmSegment → ℕ}
    (hf : ∀ seg ∈ env.vmMap, ∀ a, Follows I R (f a seg) (tickWaits (ticks seg))) (a : α) :
    Follows I R (env.vmMap.reverse.foldlM f a) (tickWaits (env.vmMap.map ticks).sum) := by
  have h := Follows.foldlM (l := env.vmMap.reverse)
    (fun seg hseg => hf seg (List.mem_reverse.mp hseg)) a
  rwa [flatMap_tickWaits, List.map_reverse, List.sum_reverse] at h

/-- The blocks of the chunks of a CPU, in a test that aligns its chunks to `chunkAlign` and needs at
least `least` words of them. -/
def TestEnv.chunkBlocks (env : TestEnv arch) (chunkAlign least : ℕ) : ℕ :=
  env.sweepBlocks least (chunkLength arch env.cfg env.myCpu chunkAlign)
    (chunkLength arch env.cfg env.myCpu chunkAlign)

section

variable (h : Account env I R) (hchunks : ChunksOk env chunkAlign) {body : ℕ → α → TestM arch α}
  (hbody : 0 ≤ env.myCpu → ∀ p a, Follows I R (body p a) [])

include h hchunks hbody

theorem sweepUp_follows (a : α) :
    Follows I R (sweepUp env chunkAlign body a) (tickWaits (env.chunkBlocks chunkAlign 1)) := by
  refine foldlM_follows (fun seg hseg a => ?_) a
  obtain ⟨c, hc, -⟩ := hchunks seg hseg
  rw [chunkLength_eq hc]
  exact segmentUp_follows h hc
    (fun hcpu pe r => Follows.doWhileUp (hbody hcpu) r.1 pe r.2) a

theorem sweepDown_follows (a : α) :
    Follows I R (sweepDown env chunkAlign body a) (tickWaits (env.chunkBlocks chunkAlign 1)) := by
  refine foldlM_reverse_follows (fun seg hseg a => ?_) a
  obtain ⟨c, hc, hstart⟩ := hchunks seg hseg
  rw [chunkLength_eq hc]
  exact segmentDown_follows h hc hstart
    (fun hcpu ps r => Follows.doWhileDown (hbody hcpu) r.1 ps r.2) a

end

end Memtest
