import Memtest.Tests.MovInv
import Memtest.Tests.Progress
import Memtest.Tests.Words

/-!
# Moving inversions report exactly the faults they see

The sweeps of a moving inversions test alternate between two lists of values, one value for each
word. A sweep checks each word for the value the sweep before it has written. So no word is
reported that works, and `test_mov_inv_fixed` reports each word in which one of its two patterns
does not survive; if they are complements of each other, every stuck bit is found.
-/

namespace Memtest

open Hoare Xorshift

variable {arch : Arch} {α : Type} {env : TestEnv arch} {chunkAlign : ℕ}

/-! ### Sweeps that follow a sequence of patterns -/

section

variable {pat : ℕ → α} {new old : ℕ → Testword arch} {seen : ℕ → Prop} {ws : List ℕ} {k p : ℕ}

theorem checkWrite_up_triple (hnodup : ws.Nodup) (hcpu : 0 ≤ env.myCpu) (hk : ws[k]? = some p) :
    Triple (Progress env ws k new old seen) (checkWrite env p (old k) (new k))
      (fun _ => Progress env ws (k + 1) new old
        fun q => seen q ∨ q = p ∧ env.readBack p (old k) ≠ old k) (SoundExit env chunkAlign) :=
  (checkWord_triple (Q := fun _ => Progress env ws k new old
      fun q => seen q ∨ q = p ∧ env.readBack p (old k) ≠ old k)
    fun _ h => h.check hcpu hk (if_neg (Nat.lt_irrefl k)).symm).bind fun _ =>
  Triple.modify fun _ h => h.write hnodup hk

theorem checkWrite_down_triple (hnodup : ws.Nodup) (hcpu : 0 ≤ env.myCpu) (hk : ws[k]? = some p) :
    Triple (Progress env ws (k + 1) new old seen) (checkWrite env p (new k) (old k))
      (fun _ => Progress env ws k new old
        fun q => seen q ∨ q = p ∧ env.readBack p (new k) ≠ new k) (SoundExit env chunkAlign) :=
  (checkWord_triple (Q := fun _ => Progress env ws (k + 1) new old
      fun q => seen q ∨ q = p ∧ env.readBack p (new k) ≠ new k)
    fun _ h => h.check hcpu hk (if_pos (Nat.lt_succ_self k)).symm).bind fun _ =>
  Triple.modify fun _ h => h.restore hnodup hk

/-- A sweep carries the pattern it has come to, and the words it has met so far. -/
theorem loopInv_progress (hseen : ℕ → ℕ → Prop) :
    LoopInv env chunkAlign (SoundExit env chunkAlign) fun k a s =>
      (0 ≤ env.myCpu → a = pat k) ∧ Progress env ws k new old (hseen k) s :=
  ⟨fun k a => Progress.stable.and_left _,
    fun hcpu k k' a s h => ⟨fun h0 => absurd h0 (by omega), h.2.dummy hcpu⟩⟩

end

section

variable {new old : ℕ → Testword arch} {seen : ℕ → Prop}

/-- A sweep that only writes. -/
theorem sweepUp_write (pat : ℕ → α) (new : ℕ → Testword arch)
    (hnodup : (env.words chunkAlign).Nodup) {body : ℕ → α → TestM arch α}
    (hbody : ∀ i p, body p (pat i) = do
      writeWord p (new i)
      pure (pat (i + 1))) (next : ℕ → Testword arch) :
    Triple (TestState.Sound env) (sweepUp env chunkAlign body (pat 0))
      (fun _ => Progress env (env.words chunkAlign) 0 next new fun _ => False)
      (SoundExit env chunkAlign) := by
  intro s₀ hs₀
  obtain ⟨old, hbegin⟩ : ∃ old, Progress env (env.words chunkAlign) 0 new old (fun _ => False) s₀ :=
    ⟨_, Progress.begin hs₀ new⟩
  have hinv : LoopInv env chunkAlign (SoundExit env chunkAlign) fun k a s =>
      (0 ≤ env.myCpu → a = pat k) ∧
        Progress env (env.words chunkAlign) k new old (fun _ => False) s :=
    loopInv_progress fun _ _ => False
  refine ((hinv.sweepUp body (fun hcpu i p hi a => ?_) (pat 0)).post
    fun a s hs => hs.2.turn next) s₀ ⟨fun _ => rfl, hbegin⟩
  refine Triple.of_pre (fun s hs => hs.1 hcpu) fun ha => ?_
  rw [ha, hbody]
  exact (Triple.modify fun _ h => h.2.write hnodup hi).bind fun _ =>
    Triple.pure fun s hs => ⟨fun _ => rfl, hs⟩

/-- An upward sweep that checks each word and writes another value. -/
theorem sweepUp_checkWrite (pat : ℕ → α) (hnodup : (env.words chunkAlign).Nodup)
    {body : ℕ → α → TestM arch α}
    (hbody : ∀ i p, body p (pat i) = do
      checkWrite env p (old i) (new i)
      pure (pat (i + 1))) :
    Triple (Progress env (env.words chunkAlign) 0 new old seen)
      (sweepUp env chunkAlign body (pat 0))
      (fun a s => (0 ≤ env.myCpu → a = pat (env.words chunkAlign).length) ∧
        Progress env (env.words chunkAlign) (env.words chunkAlign).length new old
          (fun p => seen p ∨ ∃ i, (env.words chunkAlign)[i]? = some p ∧
            env.readBack p (old i) ≠ old i) s)
      (SoundExit env chunkAlign) := by
  have hinv : LoopInv env chunkAlign (SoundExit env chunkAlign) fun k a s =>
      (0 ≤ env.myCpu → a = pat k) ∧ Progress env (env.words chunkAlign) k new old
        (fun p => seen p ∨ ∃ i < k, (env.words chunkAlign)[i]? = some p ∧
          env.readBack p (old i) ≠ old i) s :=
    loopInv_progress _
  refine Triple.pre ((hinv.sweepUp body (fun hcpu i p hi a => ?_) (pat 0)).post
    fun a s hs => ⟨hs.1, hs.2.mono fun p hp => ?_⟩)
    fun s hs => ⟨fun _ => rfl, hs.mono fun p hp => ?_⟩
  · refine Triple.of_pre (fun s hs => hs.1 hcpu) fun ha => ?_
    rw [ha, hbody]
    refine ((checkWrite_up_triple hnodup hcpu hi).pre fun s hs => hs.2).bind fun _ =>
      Triple.pure fun s hs => ⟨fun _ => rfl, hs.mono fun q hq => ?_⟩
    obtain hq | ⟨j, hj, hget, hne⟩ := hq
    · exact .inl (.inl hq)
    · obtain hlt | rfl := Nat.lt_or_eq_of_le (Nat.le_of_lt_succ hj)
      · exact .inl (.inr ⟨j, hlt, hget, hne⟩)
      · rw [hi] at hget
        obtain rfl := Option.some.inj hget
        exact .inr ⟨rfl, hne⟩
  · obtain hp | ⟨i, hget, hne⟩ := hp
    · exact .inl hp
    · exact .inr ⟨i, (List.getElem?_eq_some_iff.mp hget).1, hget, hne⟩
  · obtain hp | ⟨i, hi, -⟩ := hp
    · exact hp
    · exact absurd hi (Nat.not_lt_zero i)

/-- A downward sweep that checks each word and writes the value it had before the last sweep. -/
theorem sweepDown_checkWrite (pat : ℕ → α) (hnodup : (env.words chunkAlign).Nodup)
    (hzero : 0 ∉ env.words chunkAlign) {body : ℕ → α → TestM arch α}
    (hbody : ∀ i p, body p (pat (i + 1)) = do
      checkWrite env p (new i) (old i)
      pure (pat i)) {a : α} (ha : 0 ≤ env.myCpu → a = pat (env.words chunkAlign).length) :
    Triple (Progress env (env.words chunkAlign) (env.words chunkAlign).length new old seen)
      (sweepDown env chunkAlign body a)
      (fun _ => Progress env (env.words chunkAlign) 0 new old
        fun p => seen p ∨ ∃ i, (env.words chunkAlign)[i]? = some p ∧
          env.readBack p (new i) ≠ new i)
      (SoundExit env chunkAlign) := by
  have hinv : LoopInv env chunkAlign (SoundExit env chunkAlign) fun k a s =>
      (0 ≤ env.myCpu → a = pat k) ∧ Progress env (env.words chunkAlign) k new old
        (fun p => seen p ∨ ∃ i, k ≤ i ∧ (env.words chunkAlign)[i]? = some p ∧
          env.readBack p (new i) ≠ new i) s :=
    loopInv_progress _
  refine Triple.pre ((hinv.sweepDown hzero body (fun hcpu i p hi a => ?_) a).post
    fun a s hs => hs.2.mono fun p hp => ?_) fun s hs => ⟨ha, hs.mono fun p hp => ?_⟩
  · refine Triple.of_pre (fun s hs => hs.1 hcpu) fun ha => ?_
    rw [ha, hbody]
    refine ((checkWrite_down_triple hnodup hcpu hi).pre fun s hs => hs.2).bind fun _ =>
      Triple.pure fun s hs => ⟨fun _ => rfl, hs.mono fun q hq => ?_⟩
    obtain hq | ⟨j, hj, hget, hne⟩ := hq
    · exact .inl (.inl hq)
    · obtain rfl | hlt := Nat.eq_or_lt_of_le hj
      · rw [hi] at hget
        obtain rfl := Option.some.inj hget
        exact .inr ⟨rfl, hne⟩
      · exact .inl (.inr ⟨j, hlt, hget, hne⟩)
  · obtain hp | ⟨i, hget, hne⟩ := hp
    · exact .inl hp
    · exact .inr ⟨i, Nat.zero_le i, hget, hne⟩
  · obtain hp | ⟨i, hi, hget, -⟩ := hp
    · exact hp
    · exact absurd (List.getElem?_eq_some_iff.mp hget).1 (by omega)

end

/-! ### The fixed pattern -/

section

variable {value : Testword arch} {seen : ℕ → Prop}

theorem storeWords_triple (value : Testword arch) {I : ℕ → TestState arch → Prop}
    {R : Exit → TestState arch → Prop} {p n : ℕ}
    (hwrite : ∀ q, p ≤ q → q < p + n → ∀ s, I q s → I (q + 1) (s.set q value)) :
    Triple (I p) (storeWords value p n) (fun _ => I (p + n)) R := by
  induction n generalizing p with
  | zero => exact Triple.pure fun s hs => hs
  | succ n ih =>
    have h := ih (p := p + 1) fun q hq hlt => hwrite q (by omega) (by omega)
    rw [show p + 1 + n = p + (n + 1) by omega] at h
    exact (Triple.modify (hwrite p (Nat.le_refl p) (by omega))).bind fun _ => h

/-- A word that already holds its new value can be written again. -/
theorem Progress.rewrite {ws : List ℕ} {k i p : ℕ} {old : ℕ → Testword arch} {s : TestState arch}
    (h : Progress env ws k (fun _ => value) old seen s) (hnodup : ws.Nodup)
    (hi : ws[i]? = some p) (hik : i ≤ k) :
    Progress env ws (max k (i + 1)) (fun _ => value) old seen (s.set p value) := by
  obtain rfl | hlt := Nat.eq_or_lt_of_le hik
  · rw [Nat.max_eq_right (Nat.le_succ i)]
    exact h.write hnodup hi
  · rw [Nat.max_eq_left hlt]
    refine ⟨Sound.of_log h.sound fun q good bad u hq => by simpa using hq,
      fun hcpu j q hj => ?_, fun hcpu q hq => Detected.of_log (h.complete hcpu q hq)
        fun e he => by simp [he]⟩
    rw [store_set_getElem? hnodup hi _ hj, h.swept hcpu j q hj]
    grind

/-- The hand-optimised fill. A block begins at the last word of the block before it. -/
theorem fill_triple (hnodup : (env.words chunkAlign).Nodup) (next : ℕ → Testword arch) :
    Triple (TestState.Sound env)
      (env.vmMap.foldlM (segmentUp env chunkAlign (fillBlock value)) ())
      (fun _ => Progress env (env.words chunkAlign) 0 next (fun _ => value) fun _ => False)
      (SoundExit env chunkAlign) := by
  intro s₀ hs₀
  obtain ⟨old, hbegin⟩ : ∃ old,
      Progress env (env.words chunkAlign) 0 (fun _ => value) old (fun _ => False) s₀ :=
    ⟨_, Progress.begin hs₀ _⟩
  have hinv : LoopInv env chunkAlign (SoundExit env chunkAlign) fun k (_ : Unit) s =>
      Progress env (env.words chunkAlign) k (fun _ => value) old (fun _ => False) s :=
    ⟨fun _ _ => Progress.stable, fun hcpu _ _ _ _ h => h.dummy hcpu⟩
  refine ((Triple.foldlM (I := fun before _ =>
    Progress env (env.words chunkAlign) (before.flatMap (env.segmentWords chunkAlign)).length
      (fun _ => value) old fun _ => False)
    (fun before seg after hmap a => ?_) ()).post fun _ s hs => hs.turn next) s₀ hbegin
  rw [List.flatMap_append, List.length_append, List.flatMap_singleton]
  refine hinv.segmentUp (K := fun start k p => p = k ∧ k = start ∨ p + 1 = k ∧ start ≤ p)
    (by rw [hmap]; simp) (fun start => .inl ⟨rfl, rfl⟩)
    (fun hcpu start stop hwords hstart pe pe' p a hlo hle hhi hp => ?_) a
  -- the first write may repeat the last one of the block before
  have hstore := storeWords_triple value (R := SoundExit env chunkAlign)
    (I := fun q => Progress env (env.words chunkAlign)
      ((before.flatMap (env.segmentWords chunkAlign)).length + (max pe q - start))
      (fun _ => value) old fun _ => False) (p := p) (n := pe' + 1 - p) fun q hq hq' s hs => ?_
  · rw [show max pe p = pe by omega, show max pe (p + (pe' + 1 - p)) = pe' + 1 by omega] at hstore
    exact hstore.bind fun _ => Triple.pure fun s hs => ⟨.inr ⟨rfl, by omega⟩, hs⟩
  · have hget := getElem?_words (j := q - start) hmap hwords (by omega)
    rw [Nat.add_sub_cancel' (by omega)] at hget
    have h := hs.rewrite hnodup hget (by omega)
    rwa [show max _ _ = (before.flatMap (env.segmentWords chunkAlign)).length +
      (max pe (q + 1) - start) by omega] at h

/-- `test_mov_inv_fixed` reports only faulty words, and every word in which one of the patterns
does not survive. -/
theorem testMovInvFixed_triple (hnodup : (env.words arch.wordBytes).Nodup)
    (hzero : 0 ∉ env.words arch.wordBytes) (iterations : ℕ) (pattern1 pattern2 : Testword arch) :
    Triple (TestState.Sound env) (testMovInvFixed env iterations pattern1 pattern2)
      (fun _ => Progress env (env.words arch.wordBytes) 0 (fun _ => pattern2) (fun _ => pattern1)
        fun p => 0 < iterations ∧ p ∈ env.words arch.wordBytes ∧
          (env.readBack p pattern1 ≠ pattern1 ∨ env.readBack p pattern2 ≠ pattern2))
      (SoundExit env arch.wordBytes) := by
  refine (fill_triple hnodup fun _ => pattern2).bind fun _ => ?_
  refine Triple.pre (Triple.repeatM (I := fun i (_ : Unit) =>
    Progress env (env.words arch.wordBytes) 0 (fun _ => pattern2) (fun _ => pattern1)
      fun p => 0 < i ∧ p ∈ env.words arch.wordBytes ∧
        (env.readBack p pattern1 ≠ pattern1 ∨ env.readBack p pattern2 ≠ pattern2))
    (fun i hi _ => ?_) ()) fun s hs => hs.mono fun p hp => absurd hp.1 (Nat.lt_irrefl 0)
  refine Progress.flushCaches_triple.bind fun _ => ?_
  refine (sweepUp_checkWrite (fun _ => ()) hnodup fun _ _ => bind_pure_unit.symm).bind
    fun _ => ?_
  refine (Progress.flushCaches_triple.pre fun s hs => hs.2).bind fun _ => ?_
  refine (sweepDown_checkWrite (fun _ => ()) hnodup hzero
    (fun _ _ => bind_pure_unit.symm) fun _ => rfl).post fun _ s hs => hs.mono fun p hp => ?_
  obtain ⟨-, hmem, hne⟩ := hp
  obtain ⟨j, hj⟩ := List.mem_iff_getElem?.mp hmem
  obtain h1 | h2 := hne
  · exact .inl (.inr ⟨j, hj, h1⟩)
  · exact .inr ⟨j, hj, h2⟩

end

/-! ### The walking and the random pattern -/

/-- `test_mov_inv_walk1` reports only faulty words. -/
theorem testMovInvWalk1_triple (hnodup : (env.words arch.wordBytes).Nodup)
    (hzero : 0 ∉ env.words arch.wordBytes) (iterations offset : ℕ) (inverse : Bool) :
    Triple (TestState.Sound env) (testMovInvWalk1 env iterations offset inverse)
      (fun _ => TestState.Sound env) (SoundExit env arch.wordBytes) := by
  -- word `i` gets the first pattern, rotated `i` times
  set pat : ℕ → Testword arch := fun i => rotateLeftOne^[i] (walk1Pattern arch offset inverse)
    with hpat
  have hsucc : ∀ i, pat (i + 1) = rotateLeftOne (pat i) := fun i =>
    Function.iterate_succ_apply' _ _ _
  have hback : ∀ i, rotateRightOne (~~~pat (i + 1)) = ~~~pat i := fun i => by
    rw [hsucc, ← rotateLeftOne_not, rotateRightOne_rotateLeftOne]
  refine (sweepUp_write pat pat hnodup (fun i p => by rw [hsucc])
    fun i => ~~~pat i).bind fun _ => ?_
  refine (Triple.repeatM (I := fun _ _ => Progress env (env.words arch.wordBytes) 0
    (fun i => ~~~pat i) pat fun _ => False) (fun i hi _ => ?_) ()).post
    (fun _ s hs => hs.sound) |>.pre ?_
  · refine Progress.flushCaches_triple.bind fun _ => ?_
    refine (sweepUp_checkWrite pat hnodup fun i p => by rw [hsucc]).bind fun a => ?_
    refine Triple.of_imp fun ha => ?_
    refine Progress.flushCaches_triple.bind fun _ => ?_
    refine (sweepDown_checkWrite (fun i => ~~~pat i) hnodup hzero
      (fun i p => ?_) fun hcpu => by rw [ha hcpu]).bind fun _ => Triple.pure fun s hs =>
        hs.mono fun p hp => hp.elim
    rw [hback, BitVec.not_not]
  · exact fun s hs => hs

/-- `test_mov_inv_random` reports only faulty words. -/
theorem testMovInvRandom_triple (hnodup : (env.words arch.wordBytes).Nodup) (clock : Clock) :
    Triple (TestState.Sound env) (testMovInvRandom env clock)
      (fun _ => TestState.Sound env) (SoundExit env arch.wordBytes) := by
  rw [testMovInvRandom]
  generalize clock.seed arch * BitVec.ofNat arch.bits 0x87654321 = seed
  -- word `i` gets the pattern after `i + 1` steps
  set pat : ℕ → Testword arch := fun i => prsg^[i] seed with hpat
  have hsucc : ∀ i, pat (i + 1) = prsg (pat i) := fun i => Function.iterate_succ_apply' _ _ _
  refine (sweepUp_write pat (fun i => pat (i + 1)) hnodup
    (fun i p => by rw [hsucc]) fun i =>
      ~~~(pat (i + 1) ^^^ BitVec.ofNat arch.bits 0)).bind fun _ => ?_
  refine Triple.pre ((Triple.repeatM (I := fun _ invert s =>
    ∀ next, Progress env (env.words arch.wordBytes) 0 next
      (fun i => pat (i + 1) ^^^ invert) (fun _ => False) s)
    (fun i hi invert => ?_) (BitVec.ofNat arch.bits 0)).bind fun _ =>
      Triple.pure fun s hs => (hs pat).sound) ?_
  · refine (Progress.flushCaches_triple.pre fun s hs =>
      hs fun i => ~~~(pat (i + 1) ^^^ invert)).bind fun _ => ?_
    refine ((sweepUp_checkWrite pat hnodup fun i p => by rw [hsucc]).bind fun a =>
      Triple.pure fun s hs next => ?_)
    have h := (hs.2.turn next).mono fun p (hp : False) => hp.elim
    simpa only [BitVec.not_xor_right] using h
  · intro s hs next
    exact ⟨hs.sound, fun hcpu i p hi => by
      rw [if_neg (Nat.not_lt_zero i), BitVec.xor_zero, hs.swept hcpu i p hi,
        if_neg (Nat.not_lt_zero i)], hs.complete⟩

/-! ### Stuck bits -/

/-- A memory in which bit `bit` of word `w` is stuck at `b`: whatever is written into the word,
this bit of it reads back as `b`. All other bits, and all other words, are as written. -/
def stuckAt (w bit : ℕ) (b : Bool) (p : ℕ) (v : Testword arch) : Testword arch :=
  let mask := BitVec.ofNat arch.bits 1 <<< bit
  if p = w then (if b = true then v ||| mask else v &&& ~~~mask) else v

theorem getLsbD_stuckAt {w bit : ℕ} {b : Bool} (hbit : bit < arch.bits) (v : Testword arch) :
    (stuckAt w bit b w v).getLsbD bit = b := by
  cases b <;> simp [stuckAt, hbit]

/-- A stuck bit does not let two complementary patterns survive. -/
theorem stuckAt_ne_or {w bit : ℕ} {b : Bool} (hbit : bit < arch.bits) (v : Testword arch) :
    stuckAt w bit b w v ≠ v ∨ stuckAt w bit b w (~~~v) ≠ ~~~v := by
  by_contra hboth
  push Not at hboth
  obtain ⟨h1, h2⟩ := hboth
  have hv : v.getLsbD bit = b := by rw [← h1]; exact getLsbD_stuckAt hbit v
  have hnot : (~~~v).getLsbD bit = b := by rw [← h2]; exact getLsbD_stuckAt hbit _
  rw [BitVec.getLsbD_not, hv] at hnot
  simp [hbit] at hnot

/-- **Fault detection.** If one bit of one word of the chunks of a CPU is stuck and all other
words work, `test_mov_inv_fixed` with complementary patterns reports that word and no other, and
with `use_for_badram` set.

The two patterns differ in every bit, so one of them is lost in the stuck one. There is no need to
know which: each iteration sweeps up with the first pattern and down with the second, and the
first of the two checks that finds the other value reports it. The test must not be bailed out of,
and the CPU must be a real one: a dummy run neither writes nor checks anything. -/
theorem testMovInvFixed_detects (hsegs : SegmentsOk arch env.vmMap)
    (hindex : env.cfg.IndexOk env.myCpu) (hcpu : 0 ≤ env.myCpu) (hbail : ∀ n, env.bail n = false)
    {w bit : ℕ} {b : Bool} (hw : w ∈ env.words arch.wordBytes) (hbit : bit < arch.bits)
    (hmem : env.readBack = stuckAt w bit b) {iterations : ℕ} (hiter : 1 ≤ iterations)
    (pattern1 : Testword arch) (store : ℕ → Testword arch) :
    let s := ((testMovInvFixed env iterations pattern1 (~~~pattern1)).exec (.init store)).2
    (∃ good bad, .dataError w good bad true ∈ s.log) ∧
      ∀ p good bad useForBadram, .dataError p good bad useForBadram ∈ s.log →
        p = w ∧ useForBadram = true := by
  have halign := alignOk_wordBytes arch
  have hrun := testMovInvFixed_triple (nodup_words hsegs halign hindex)
    (zero_notMem_words hsegs halign hindex) iterations pattern1 (~~~pattern1)
  have hinit : TestState.Sound env (.init store) := fun _ _ _ _ h => absurd h List.not_mem_nil
  refine hrun.final (I := fun s => s.Detected w ∧ ∀ p good bad useForBadram,
    .dataError p good bad useForBadram ∈ s.log → p = w ∧ useForBadram = true) hinit
    (fun _ s hs => ⟨hs.complete hcpu w ⟨hiter, hw, ?_⟩, fun p good bad u hp => ?_⟩)
    fun e s hs => absurd hs.2 (not_canExit hsegs halign hindex hbail e s)
  · rw [hmem]
    exact stuckAt_ne_or hbit pattern1
  · obtain ⟨hu, v, hv⟩ := hs.sound p good bad u hp
    refine ⟨?_, hu⟩
    by_contra hne
    rw [hmem, stuckAt, if_neg hne] at hv
    exact hv rfl

/-- The theorem at bit 5 of the second word stuck at one. -/
theorem testMovInvFixed_detects_secondWord :
    let s := ((testMovInvFixed (sampleEnv (stuckAt 0x201 5 true)) 1 0#64 (~~~0#64)).exec
      (.init fun _ => 0#64)).2
    (∃ good bad, .dataError 0x201 good bad true ∈ s.log) ∧
      ∀ p good bad useForBadram, .dataError p good bad useForBadram ∈ s.log →
        p = 0x201 ∧ useForBadram = true :=
  testMovInvFixed_detects (segmentsOk_sampleEnv _) (.inl rfl) (by decide) (fun _ => rfl)
    (List.mem_flatMap.mpr ⟨⟨0x1, 0x1000, 0x1010, 0⟩, List.mem_cons_self, by decide⟩) (by decide) rfl
    (Nat.le_refl 1) 0#64 fun _ => 0#64

end Memtest
