import Memtest.Tests.Machine

/-!
# Rules for sweeps

A sweep meets the words of the chunks of `my_cpu` in order, or in the opposite order, each of them
once, however they are split into blocks. So an assertion indexed by the number of words dealt with
holds throughout a sweep if the body of the loop carries it over one word.

Ticks must not disturb such an assertion, and it has to imply the postcondition of an early exit.
In a dummy run (`my_cpu < 0`) no word is touched, and the assertion has to say nothing about how
far the sweep has come.
-/

namespace Memtest

open Hoare

variable {arch : Arch} {α β : Type} {env : TestEnv arch} {chunkAlign : ℕ}
  {R : Exit → TestState arch → Prop}

/-! ### The words of a test -/

/-- The words of a chunk, upwards. -/
def Chunk.words (arch : Arch) (c : Chunk) : List ℕ :=
  if c.stop < c.start then []
  else List.range' (c.start / arch.wordBytes)
    (c.stop / arch.wordBytes + 1 - c.start / arch.wordBytes)

/-- The words of the chunk of `my_cpu` in a segment. -/
def TestEnv.segmentWords (env : TestEnv arch) (chunkAlign : ℕ) (seg : VmSegment) : List ℕ :=
  match calculateChunk arch env.cfg env.myCpu seg chunkAlign with
  | some c => c.words arch
  | none => []

/-- The words of the chunks of `my_cpu`, in the order in which an upward sweep meets them. -/
def TestEnv.words (env : TestEnv arch) (chunkAlign : ℕ) : List ℕ :=
  env.vmMap.flatMap (env.segmentWords chunkAlign)

theorem segmentWords_subset {seg : VmSegment} (hseg : seg ∈ env.vmMap) {p : ℕ}
    (hp : p ∈ env.segmentWords chunkAlign seg) : p ∈ env.words chunkAlign :=
  List.mem_flatMap.mpr ⟨seg, hseg, hp⟩

/-! ### Assertions a sweep can carry -/

/-- When a test can exit. -/
def TestEnv.CanExit (env : TestEnv arch) (chunkAlign : ℕ) : Exit → TestState arch → Prop
  | .bailout, s => env.bail s.doTicks = true
  | .divideError, _ =>
      ∃ seg ∈ env.vmMap, calculateChunk arch env.cfg env.myCpu seg chunkAlign = none

/-- Ticks do not disturb the assertion, and it implies the postcondition of an exit. -/
structure Stable (env : TestEnv arch) (chunkAlign : ℕ) (R : Exit → TestState arch → Prop)
    (P : TestState arch → Prop) : Prop where
  countTick : ∀ s, P s → P s.countTick
  doTick : ∀ s, P s → P s.doTick
  useSlot : ∀ i s, P s → P (s.useSlot i)
  exit : ∀ e s, P s → env.CanExit chunkAlign e s → R e s

/-- An assertion indexed by how far a loop has come. -/
structure LoopInv (env : TestEnv arch) (chunkAlign : ℕ) (R : Exit → TestState arch → Prop)
    (I : ℕ → β → TestState arch → Prop) : Prop where
  stable : ∀ k b, Stable env chunkAlign R (I k b)
  dummy : env.myCpu < 0 → ∀ k k' b s, I k b s → I k' b s

variable {P : TestState arch → Prop} {I : ℕ → β → TestState arch → Prop}

/-- A fact about the local variables can be added. -/
theorem Stable.and_left (h : Stable env chunkAlign R P) (p : Prop) :
    Stable env chunkAlign R fun s => p ∧ P s :=
  ⟨fun s hs => ⟨hs.1, h.countTick s hs.2⟩, fun s hs => ⟨hs.1, h.doTick s hs.2⟩,
    fun i s hs => ⟨hs.1, h.useSlot i s hs.2⟩, fun e s hs => h.exit e s hs.2⟩

theorem Stable.doTick_triple (h : Stable env chunkAlign R P) :
    Triple P (Memtest.doTick env) (fun _ => P) R := by
  refine (Triple.modify (Q := fun _ => P) h.doTick).bind fun _ => ?_
  refine (Triple.get (Q := fun s t => s = t ∧ P t) fun s hs => ⟨rfl, hs⟩).bind fun s => ?_
  refine Triple.ite (fun hbail => Triple.throw ?_) fun _ => Triple.pure fun t ht => ht.2
  rintro t ⟨rfl, ht⟩
  exact h.exit .bailout s ht hbail

theorem Stable.skipRange_triple (h : Stable env chunkAlign R P) (n : ℕ) :
    Triple P (skipRange env n) (fun _ => P) R := by
  refine Triple.ite (fun _ => ?_) fun _ => Triple.pure fun s hs => hs
  induction n with
  | zero => exact Triple.pure fun s hs => hs
  | succ n ih => exact h.doTick_triple.bind fun _ => ih

theorem Stable.useCpuSlot_triple (h : Stable env chunkAlign R P) (i : ℤ) :
    Triple P (useCpuSlot i) (fun _ => P) R :=
  Triple.modify (h.useSlot i)

/-- After `calculate_chunk`, the chunk is known. -/
theorem Stable.chunkOf_triple (h : Stable env chunkAlign R P) {seg : VmSegment}
    (hseg : seg ∈ env.vmMap) :
    Triple P (chunkOf env chunkAlign seg)
      (fun c s => calculateChunk arch env.cfg env.myCpu seg chunkAlign = some c ∧ P s) R := by
  have htables : Triple P (useChunkTables env) (fun _ => P) R :=
    Triple.ite (fun _ => Triple.pure fun s hs => hs) fun _ => h.useCpuSlot_triple _
  refine htables.bind fun _ => ?_
  cases hc : calculateChunk arch env.cfg env.myCpu seg chunkAlign with
  | some c => exact Triple.pure fun s hs => ⟨rfl, hs⟩
  | none => exact Triple.throw fun s hs => h.exit .divideError s hs ⟨seg, hseg, hc⟩

/-! ### Blocks -/

theorem oneBlock_triple {Q : β → TestState arch → Prop} {block : ℕ → β → TestM arch β} {pe : ℕ}
    {b : β} (hP : Stable env chunkAlign R P) (hQ : ∀ b, Stable env chunkAlign R (Q b))
    (hdummy : env.myCpu < 0 → ∀ s, P s → Q b s)
    (hblock : 0 ≤ env.myCpu → Triple P (block pe b) Q R) :
    Triple P (oneBlock env block pe b) Q R := by
  refine (Triple.modify (Q := fun _ => P) hP.countTick).bind fun _ => ?_
  refine Triple.ite (fun hcpu => Triple.pure (hdummy hcpu)) fun hcpu => ?_
  refine (hP.useCpuSlot_triple _).bind fun _ => (hblock (by omega)).bind fun b' => ?_
  exact (hQ b').doTick_triple.bind fun _ => Triple.pure fun s hs => hs

/-- The blocks of an upward loop. All but the last have `SPIN_SIZE` words, and the next one begins
where the last one ended. -/
theorem LoopInv.blocksUp_last (hI : LoopInv env chunkAlign R I) {Q : β → TestState arch → Prop}
    (hQ : ∀ b, Stable env chunkAlign R (Q b))
    (hdummy : env.myCpu < 0 → ∀ k b s, I k b s → Q b s) {stop start : ℕ}
    {block : ℕ → β → TestM arch β}
    (hblock : 0 ≤ env.myCpu → ∀ pe b, start ≤ pe → pe + env.spinSize ≤ stop →
      Triple (I pe b) (block (pe + (env.spinSize - 1)) b) (I (pe + env.spinSize)) R)
    (hlast : 0 ≤ env.myCpu → ∀ pe b, start ≤ pe → pe = start ∨ pe ≤ stop →
      stop < pe + env.spinSize → Triple (I pe b) (block stop b) Q R) (b : β) :
    Triple (I start b) (blocksUp env stop block start b) Q R := by
  have hpos := env.spinSize_pos
  have hrun : ∀ n pe b, stop - pe ≤ n → start ≤ pe → pe = start ∨ pe ≤ stop →
      Triple (I pe b) (Memtest.blocksUp env stop block pe b) Q R := by
    intro n
    induction n with
    | zero =>
      intro pe b hn hlo hhi
      rw [Memtest.blocksUp, dif_neg (by omega)]
      exact oneBlock_triple (hI.stable pe b) hQ (fun hcpu => hdummy hcpu pe b)
        fun hcpu => hlast hcpu pe b hlo hhi (by omega)
    | succ n ih =>
      intro pe b hn hlo hhi
      rw [Memtest.blocksUp]
      split
      · next hle =>
        rw [show pe + (env.spinSize - 1) + 1 = pe + env.spinSize by omega]
        refine (oneBlock_triple (hI.stable pe b) (hI.stable _)
          (fun hcpu => hI.dummy hcpu pe _ b) fun hcpu => hblock hcpu pe b hlo hle).bind fun b' => ?_
        exact ih _ b' (by omega) (by omega) (.inr hle)
      · exact oneBlock_triple (hI.stable pe b) hQ (fun hcpu => hdummy hcpu pe b)
          fun hcpu => hlast hcpu pe b hlo hhi (by omega)
  exact hrun _ start b (Nat.le_refl _) (Nat.le_refl _) (.inl rfl)

/-- The same, for a loop that ends one word above its last one. -/
theorem LoopInv.blocksUp (hI : LoopInv env chunkAlign R I) {stop start : ℕ}
    {block : ℕ → β → TestM arch β}
    (hblock : 0 ≤ env.myCpu → ∀ pe pe' b, start ≤ pe → pe = start ∨ pe ≤ stop →
      pe' = stop ∧ stop < pe + env.spinSize ∨ pe' + 1 = pe + env.spinSize ∧ pe' < stop →
      Triple (I pe b) (block pe' b) (I (pe' + 1)) R) (b : β) :
    Triple (I start b) (blocksUp env stop block start b) (I (stop + 1)) R := by
  have hpos := env.spinSize_pos
  refine hI.blocksUp_last (hI.stable _) (fun hcpu k b => hI.dummy hcpu k _ b)
    (fun hcpu pe b hlo hle => ?_)
    (fun hcpu pe b hlo hhi hlt => hblock hcpu pe stop b hlo hhi (.inl ⟨rfl, hlt⟩)) b
  have h := hblock hcpu pe (pe + (env.spinSize - 1)) b hlo (.inr (by omega))
    (.inr ⟨by omega, by omega⟩)
  rwa [show pe + (env.spinSize - 1) + 1 = pe + env.spinSize by omega] at h

/-- The blocks of a downward loop, above address 0. The assertion is indexed by the word above the
next one. -/
theorem LoopInv.blocksDown (hI : LoopInv env chunkAlign R I) {stop start : ℕ} (hstart : 0 < start)
    (hle : start ≤ stop) {block : ℕ → β → TestM arch β}
    (hblock : 0 ≤ env.myCpu → ∀ ps ps' b, ps ≤ stop → ps' ≤ ps →
      ps' = start ∧ ps < start + env.spinSize ∨ ps + 1 = ps' + env.spinSize ∧ start < ps' →
      Triple (I (ps + 1) b) (block ps' b) (I ps') R) (b : β) :
    Triple (I (stop + 1) b) (blocksDown env start block stop b) (I start) R := by
  have hpos := env.spinSize_pos
  have hrun : ∀ n ps b, ps ≤ n → ps ≤ stop → start ≤ ps →
      Triple (I (ps + 1) b) (Memtest.blocksDown env start block ps b) (I start) R := by
    intro n
    induction n with
    | zero =>
      intro ps b hn hhi hlo
      omega
    | succ n ih =>
      intro ps b hn hhi hlo
      rw [Memtest.blocksDown]
      split
      · have hnext : ps - (env.spinSize - 1) - 1 + 1 = ps - (env.spinSize - 1) := by omega
        refine (oneBlock_triple (hI.stable _ b) (hI.stable _) (fun hcpu => hI.dummy hcpu _ _ b)
          fun hcpu => hblock hcpu ps _ b hhi (by omega)
            (.inr ⟨by omega, by omega⟩)).bind fun b' => ?_
        rw [if_pos (by omega)]
        have h := ih (ps - (env.spinSize - 1) - 1) b' (by omega) (by omega) (by omega)
        rwa [hnext] at h
      · exact oneBlock_triple (hI.stable _ b) (hI.stable _) (fun hcpu => hI.dummy hcpu _ _ b)
          fun hcpu => hblock hcpu ps start b hhi hlo (.inl ⟨rfl, by omega⟩)
  exact hrun stop stop b (Nat.le_refl _) (Nat.le_refl _) hle

/-! ### Segments -/

section

variable {I : ℕ → α → TestState arch → Prop} {seg : VmSegment}

theorem segmentWords_of_lt {c : Chunk}
    (hc : calculateChunk arch env.cfg env.myCpu seg chunkAlign = some c)
    (hlt : c.stop < c.start) : env.segmentWords chunkAlign seg = [] := by
  rw [TestEnv.segmentWords, hc]
  exact if_pos hlt

theorem segmentWords_of_le {c : Chunk}
    (hc : calculateChunk arch env.cfg env.myCpu seg chunkAlign = some c)
    (hle : ¬ c.stop < c.start) :
    env.segmentWords chunkAlign seg = List.range' (c.start / arch.wordBytes)
      (c.stop / arch.wordBytes + 1 - c.start / arch.wordBytes) := by
  rw [TestEnv.segmentWords, hc]
  exact if_neg hle

/-- The loop body over the segments, upwards. `K start k p` says where the pointer `p` is when
the words from `start` up to `k` have been dealt with. -/
theorem LoopInv.segmentUp (hI : LoopInv env chunkAlign R I) (hseg : seg ∈ env.vmMap)
    {block : ℕ → ℕ × α → TestM arch (ℕ × α)} {K : ℕ → ℕ → ℕ → Prop}
    (hK : ∀ start, K start start start) {base : ℕ}
    (hblock : 0 ≤ env.myCpu → ∀ start stop,
      env.segmentWords chunkAlign seg = List.range' start (stop + 1 - start) → start ≤ stop →
      ∀ pe pe' p a, start ≤ pe → pe ≤ pe' → pe' ≤ stop → K start pe p →
      Triple (I (base + (pe - start)) a) (block pe' (p, a))
        (fun r s => K start (pe' + 1) r.1 ∧ I (base + (pe' + 1 - start)) r.2 s) R) (a : α) :
    Triple (I base a) (Memtest.segmentUp env chunkAlign block a seg)
      (I (base + (env.segmentWords chunkAlign seg).length)) R := by
  refine ((hI.stable base a).chunkOf_triple hseg).bind fun c => Triple.of_imp fun hc => ?_
  refine Triple.ite (fun hlt => ?_) fun hle => ?_
  · rw [segmentWords_of_lt hc hlt]
    exact ((hI.stable base a).skipRange_triple 1).bind fun _ => Triple.pure fun s hs => hs
  · have hwords := segmentWords_of_le hc hle
    have hstart : c.start / arch.wordBytes ≤ c.stop / arch.wordBytes :=
      Nat.div_le_div_right (by omega)
    rw [hwords, List.length_range']
    dsimp only
    generalize c.start / arch.wordBytes = start at hwords hstart ⊢
    generalize c.stop / arch.wordBytes = stop at hwords hstart ⊢
    have hJ : LoopInv env chunkAlign R fun k (r : ℕ × α) s =>
        (0 ≤ env.myCpu → K start k r.1) ∧ I (base + (k - start)) r.2 s :=
      ⟨fun k r => (hI.stable _ _).and_left _,
        fun hcpu k k' r s hs => ⟨fun h => absurd h (by omega), hI.dummy hcpu _ _ _ _ hs.2⟩⟩
    refine Triple.pre ((hJ.blocksUp (fun hcpu pe pe' r hlo hhi hpe => ?_) (start, a)).bind
      (fun r => Triple.pure fun s hs => ?_)) fun s hs => ⟨fun _ => hK start, by simpa using hs⟩
    · intro s hs
      have hpos := env.spinSize_pos
      exact (hblock hcpu start stop hwords hstart pe pe' r.1 r.2 hlo (by omega) (by omega)
        (hs.1 hcpu)).post (fun r' t ht => ⟨fun _ => ht.1, ht.2⟩) s hs.2
    · exact hs.2

/-- The loop body over the segments, downwards, for a body that deals with one word. -/
theorem LoopInv.segmentDown (hI : LoopInv env chunkAlign R I) (hseg : seg ∈ env.vmMap)
    (hzero : 0 ∉ env.words chunkAlign) {body : ℕ → α → TestM arch α} {base : ℕ}
    (hbody : 0 ≤ env.myCpu → ∀ start n, env.segmentWords chunkAlign seg = List.range' start n →
      ∀ j < n, ∀ a, Triple (I (base + j + 1) a) (body (start + j) a) (I (base + j)) R) (a : α) :
    Triple (I (base + (env.segmentWords chunkAlign seg).length) a)
      (Memtest.segmentDown env chunkAlign (fun ps r => doWhileDown body r.1 ps r.2) a seg)
      (I base) R := by
  refine ((hI.stable _ a).chunkOf_triple hseg).bind fun c => Triple.of_imp fun hc => ?_
  refine Triple.ite (fun hlt => ?_) fun hle => ?_
  · rw [segmentWords_of_lt hc hlt]
    exact ((hI.stable _ a).skipRange_triple 1).bind fun _ => Triple.pure fun s hs => hs
  · have hwords := segmentWords_of_le hc hle
    have hstart : c.start / arch.wordBytes ≤ c.stop / arch.wordBytes :=
      Nat.div_le_div_right (by omega)
    rw [hwords, List.length_range']
    dsimp only
    generalize c.start / arch.wordBytes = start at hwords hstart ⊢
    generalize c.stop / arch.wordBytes = stop at hwords hstart ⊢
    have hpos : 0 < start := by
      refine Nat.pos_of_ne_zero fun h0 => hzero (segmentWords_subset hseg ?_)
      rw [hwords, List.mem_range'_1]
      omega
    have hJ : LoopInv env chunkAlign R fun k (r : ℕ × α) s =>
        (0 ≤ env.myCpu → r.1 + 1 = k) ∧ I (base + (k - start)) r.2 s :=
      ⟨fun k r => (hI.stable _ _).and_left _,
        fun hcpu k k' r s hs => ⟨fun h => absurd h (by omega), hI.dummy hcpu _ _ _ _ hs.2⟩⟩
    refine Triple.pre ((hJ.blocksDown hpos hstart (fun hcpu ps ps' r hhi hle' hps => ?_)
      (stop, a)).bind (fun r => Triple.pure fun s hs => ?_)) fun s hs => ⟨fun _ => rfl, ?_⟩
    · rintro s ⟨hr, hs⟩
      have hr1 : r.1 = ps := by have := hr hcpu; omega
      rw [hr1]
      refine ((Triple.doWhileDown (I := fun k a => I (base + (k - start)) a) hle'
        (fun q hq hqp a => ?_) r.2).post fun r' t ht => ⟨fun _ => ?_, ht.2⟩) s hs
      · have h := hbody hcpu start _ hwords (q - start) (by omega) a
        rwa [Nat.add_sub_cancel' (by omega), Nat.add_assoc,
          show q - start + 1 = q + 1 - start by omega] at h
      · omega
    · simpa using hs.2
    · exact hs

end

/-! ### Sweeps -/

section

variable {I : ℕ → α → TestState arch → Prop}

theorem getElem?_words {before after : List VmSegment} {seg : VmSegment} {start n j : ℕ}
    (hmap : env.vmMap = before ++ seg :: after)
    (hseg : env.segmentWords chunkAlign seg = List.range' start n) (hj : j < n) :
    (env.words chunkAlign)[(before.flatMap (env.segmentWords chunkAlign)).length + j]? =
      some (start + j) := by
  rw [TestEnv.words, hmap, List.flatMap_append, List.flatMap_cons, hseg,
    List.getElem?_append_right (by omega), Nat.add_sub_cancel_left,
    List.getElem?_append_left (by rwa [List.length_range']), List.getElem?_range' (by omega),
    Nat.one_mul]

/-- **Upward sweeps.** The assertion is indexed by the number of words dealt with. -/
theorem LoopInv.sweepUp (hI : LoopInv env chunkAlign R I) (body : ℕ → α → TestM arch α)
    (hbody : 0 ≤ env.myCpu → ∀ i p, (env.words chunkAlign)[i]? = some p →
      ∀ a, Triple (I i a) (body p a) (I (i + 1)) R) (a : α) :
    Triple (I 0 a) (Memtest.sweepUp env chunkAlign body a)
      (I (env.words chunkAlign).length) R := by
  refine Triple.foldlM (I := fun before a =>
    I (before.flatMap (env.segmentWords chunkAlign)).length a) (fun before seg after hmap a => ?_) a
  rw [List.flatMap_append, List.length_append, List.flatMap_singleton]
  refine hI.segmentUp (K := fun _ k p => p = k) (by rw [hmap]; simp) (fun _ => rfl)
    (fun hcpu start stop hwords hstart pe pe' p a hlo hle hhi hp => ?_) a
  subst hp
  refine Triple.doWhileUp (I := fun k a => I (_ + (k - start)) a) hle (fun q hq hq' a => ?_) a
  have h := hbody hcpu _ _ (getElem?_words (j := q - start) hmap hwords (by omega)) a
  rwa [Nat.add_sub_cancel' (by omega), Nat.add_assoc,
    show q - start + 1 = q + 1 - start by omega] at h

/-- **Downward sweeps.** The assertion is indexed by the number of words still to come. -/
theorem LoopInv.sweepDown (hI : LoopInv env chunkAlign R I) (hzero : 0 ∉ env.words chunkAlign)
    (body : ℕ → α → TestM arch α)
    (hbody : 0 ≤ env.myCpu → ∀ i p, (env.words chunkAlign)[i]? = some p →
      ∀ a, Triple (I (i + 1) a) (body p a) (I i) R) (a : α) :
    Triple (I (env.words chunkAlign).length a) (Memtest.sweepDown env chunkAlign body a)
      (I 0) R := by
  refine Triple.foldlM_reverse (I := fun before a =>
    I (before.flatMap (env.segmentWords chunkAlign)).length a) (fun before seg after hmap a => ?_) a
  rw [List.flatMap_append, List.length_append, List.flatMap_singleton]
  refine hI.segmentDown (by rw [hmap]; simp) hzero (fun hcpu start n hwords j hj a => ?_) a
  exact hbody hcpu _ _ (getElem?_words hmap hwords hj) a

end

end Memtest
