import Memtest.Tests.ModuloN
import Memtest.Tests.Progress
import Memtest.Tests.Words

/-!
# Which words `test_modulo_n` tests

For the offset `o` the sparse words of a chunk of `len` words are those with an index `k` that
leaves the remainder `o`, but only as far as `k + n < len`: because the end pointer is `n` words
below the end of the chunk and a step is only made if it stays below the end pointer, the words in
the last `n` locations are left out, unless `k` is the offset itself. How the chunk is split into
blocks makes no difference.

So the test covers every word of a chunk of exactly `n` words, and of a longer chunk it never tests
the last one.
-/

namespace Memtest

open Hoare

variable {arch : Arch} {env : TestEnv arch} {n : ℕ} {hn : 0 < n} {o : ℕ}

/-! ### The loop over the sparse words -/

section

variable {I : ℕ → TestState arch → Prop} {R : Exit → TestState arch → Prop}
  {body : ℕ → TestM arch Unit}

/-- The assertion is indexed by the number of locations that have been visited. A block begins at
the location where the one before it has ended, so a location can be visited again. -/
theorem doWhileStride_triple {base pe : ℕ} {c : ℕ → Prop}
    (hc : ∀ j, base + (j + 1) * n ≤ pe → c (j + 1))
    (hbody : ∀ j, c j → Triple (fun s => I j s ∨ I (j + 1) s) (body (base + j * n))
      (fun _ => I (j + 1)) R) (i : ℕ) (hi : c i) :
    Triple (fun s => I i s ∨ I (i + 1) s) (doWhileStride n hn body (base + i * n) pe)
      (fun p s => ∃ j, p = base + j * n ∧ c j ∧ pe < p + n ∧ I (j + 1) s) R := by
  induction hfuel : pe - (base + i * n) using Nat.strongRecOn generalizing i with
  | _ fuel ih =>
    have hsucc : (i + 1) * n = i * n + n := Nat.succ_mul i n
    rw [doWhileStride]
    refine (hbody i hi).bind fun _ => Triple.ite (fun hle => ?_) fun hlt =>
      Triple.pure fun s hs => ⟨i, rfl, hi, by omega, hs⟩
    rw [show base + i * n + n = base + (i + 1) * n by omega]
    exact (ih _ (by omega) (i + 1) (hc i (by omega)) rfl).pre fun s hs => .inl hs

/-- The sparse locations of a chunk: the first one, and those more than `n` words below its end. -/
def IsLocation (n o len j : ℕ) : Prop := j = 0 ∨ o + j * n + n < len

/-- The blocks of a walk over the sparse words. The last block ends `n` words below the last word,
which may be below the first one. -/
theorem sparseBlocks_triple (hcpu : 0 ≤ env.myCpu) {start stop : ℕ} (hstart : 0 < start)
    (hlen : start + n ≤ stop + 1) (hstable : ∀ j, Stable env arch.wordBytes R (I j))
    (hbody : ∀ j, IsLocation n o (stop + 1 - start) j →
      Triple (fun s => I j s ∨ I (j + 1) s) (body (start + o + j * n)) (fun _ => I (j + 1)) R) :
    Triple (I 0)
      (blocksUp env (stop - n) (fun pe p => doWhileStride n hn body p pe) start (start + o))
      (fun _ s => ∃ i, (∀ j, IsLocation n o (stop + 1 - start) j → j ≤ i) ∧ I (i + 1) s) R := by
  have hpos := env.spinSize_pos
  have hor : ∀ j, Stable env arch.wordBytes R fun s => I j s ∨ I (j + 1) s := fun j =>
    ⟨fun s hs => hs.imp ((hstable j).countTick s) ((hstable _).countTick s),
      fun s hs => hs.imp ((hstable j).doTick s) ((hstable _).doTick s),
      fun i s hs => hs.imp ((hstable j).useSlot i s) ((hstable _).useSlot i s),
      fun e s hs hexit => hs.elim (fun h => (hstable j).exit e s h hexit)
        fun h => (hstable _).exit e s h hexit⟩
  have hinv : LoopInv env arch.wordBytes R fun _ (p : ℕ) s =>
      ∃ j, p = start + o + j * n ∧ IsLocation n o (stop + 1 - start) j ∧ (I j s ∨ I (j + 1) s) := by
    refine ⟨fun _ p => ⟨?_, ?_, ?_, ?_⟩, fun h => absurd hcpu (by omega)⟩
    · rintro s ⟨j, hp, hj, hs⟩
      exact ⟨j, hp, hj, (hor j).countTick s hs⟩
    · rintro s ⟨j, hp, hj, hs⟩
      exact ⟨j, hp, hj, (hor j).doTick s hs⟩
    · rintro i s ⟨j, hp, hj, hs⟩
      exact ⟨j, hp, hj, (hor j).useSlot i s hs⟩
    · rintro e s ⟨j, hp, hj, hs⟩ hexit
      exact (hor j).exit e s hs hexit
  -- a step inside a block stays more than `n` words below the end
  have hnext : ∀ pe j, pe ≤ stop - n → start + o + (j + 1) * n ≤ pe →
      IsLocation n o (stop + 1 - start) (j + 1) := fun pe j hpe hj => .inr (by omega)
  refine Triple.pre (hinv.blocksUp_last ?_ (fun h => absurd hcpu (by omega))
    (fun _ pe p hlo hle => ?_) (fun _ pe p hlo hhi hlt => ?_) (start + o))
    fun s hs => ⟨0, by simp, .inl rfl, .inl hs⟩
  · intro _
    refine ⟨?_, ?_, ?_, ?_⟩
    · rintro s ⟨i, hi, hs⟩
      exact ⟨i, hi, (hstable _).countTick s hs⟩
    · rintro s ⟨i, hi, hs⟩
      exact ⟨i, hi, (hstable _).doTick s hs⟩
    · rintro slot s ⟨i, hi, hs⟩
      exact ⟨i, hi, (hstable _).useSlot slot s hs⟩
    · rintro e s ⟨i, hi, hs⟩ hexit
      exact (hstable _).exit e s hs hexit
  · rintro s ⟨j, rfl, hj, hs⟩
    exact (doWhileStride_triple (hnext _ · (by omega)) hbody j hj).post
      (fun p s ⟨i, hp, hi, _, hs⟩ => ⟨i, hp, hi, .inr hs⟩) s hs
  · rintro s ⟨j, rfl, hj, hs⟩
    refine (doWhileStride_triple (hnext _ · (Nat.le_refl _)) hbody j hj).post
      (fun p s ⟨i, hp, hi, hend, hs⟩ => ⟨i, fun k hk => ?_, hs⟩) s hs
    obtain rfl | hk := hk
    · exact Nat.zero_le i
    · by_contra hik
      have hmul : (i + 1) * n ≤ k * n := Nat.mul_le_mul_right n (by omega)
      rw [Nat.succ_mul] at hmul
      omega

end

/-! ### One segment -/

section

variable (hsegs : SegmentsOk arch env.vmMap) (hindex : env.cfg.IndexOk env.myCpu)

include hsegs hindex

/-- What `calculate_chunk` gives: either the chunk has fewer than `n` words and is skipped, or its
words are known. -/
theorem calculateChunk_cases {chunkAlign : ℕ} (halign : AlignOk arch chunkAlign) (hn : 0 < n)
    {seg : VmSegment} (hseg : seg ∈ env.vmMap) {c : Chunk}
    (hc : calculateChunk arch env.cfg env.myCpu seg chunkAlign = some c) :
    (tooShort arch n c ∧ (env.segmentWords chunkAlign seg).length < n) ∨
    (¬ tooShort arch n c ∧ c.start / arch.wordBytes + n ≤ c.stop / arch.wordBytes + 1 ∧
      env.segmentWords chunkAlign seg = List.range' (c.start / arch.wordBytes)
        (c.stop / arch.wordBytes + 1 - c.start / arch.wordBytes)) := by
  have hword := arch.wordBytes_pos
  obtain ⟨c', hc', hor⟩ := inSegment_calculateChunk (hsegs.segment seg hseg) halign hindex
  obtain rfl := Option.some.inj (hc.symm.trans hc')
  by_cases hlt : c.stop < c.start
  · have hneg : ((c.stop : ℤ) - c.start) / arch.wordBytes < 0 :=
      Int.ediv_neg_of_neg_of_pos (by omega) (by omega)
    refine .inl ⟨?_, by rw [segmentWords_of_lt hc hlt]; exact hn⟩
    rw [tooShort]
    omega
  · have hin := hor.resolve_left hlt
    obtain ⟨a, ha⟩ := hin.start_dvd
    obtain ⟨b, hb⟩ := hin.stop_dvd
    have hstart : c.start / arch.wordBytes = a := by rw [ha, Nat.mul_div_cancel_left a hword]
    have hstop : c.stop / arch.wordBytes = b := by rw [hb, Nat.mul_div_cancel_left b hword]
    have hdiff : ((c.stop : ℤ) - c.start) / arch.wordBytes = b - a := by
      rw [ha, hb]
      push_cast
      rw [← Int.mul_sub, Int.mul_ediv_cancel_left _ (by omega)]
    have hab : a ≤ b := by
      rw [← hstart, ← hstop]
      exact Nat.div_le_div_right (by omega)
    rw [segmentWords_of_le hc hlt, tooShort, hdiff, hstart, hstop, List.length_range']
    by_cases hshort : b + 1 - a < n
    · exact .inl ⟨by omega, hshort⟩
    · exact .inr ⟨by omega, by omega, rfl⟩

/-- The assertion is indexed by the number of sparse locations that have been visited. -/
theorem sparseSegment_triple (hcpu : 0 ≤ env.myCpu) (ho : o < n) {seg : VmSegment}
    (hseg : seg ∈ env.vmMap) {I : ℕ → TestState arch → Prop} {R : Exit → TestState arch → Prop}
    {body : ℕ → TestM arch Unit} (hstable : ∀ j, Stable env arch.wordBytes R (I j))
    (hbody : ∀ j p, IsLocation n o (env.segmentWords arch.wordBytes seg).length j →
      (env.segmentWords arch.wordBytes seg)[o + j * n]? = some p →
      Triple (fun s => I j s ∨ I (j + 1) s) (body p) (fun _ => I (j + 1)) R) :
    Triple (I 0) (sparseSegment env n hn o body seg)
      (fun _ s => ∃ i, (n ≤ (env.segmentWords arch.wordBytes seg).length →
        ∀ j, IsLocation n o (env.segmentWords arch.wordBytes seg).length j → j < i) ∧ I i s) R := by
  refine ((hstable 0).chunkOf_triple hseg).bind fun c => Triple.of_imp fun hc => ?_
  obtain ⟨hshort, hlen⟩ | ⟨hlong, hlen, hwords⟩ :=
    calculateChunk_cases hsegs hindex (alignOk_wordBytes arch) hn hseg hc
  · rw [if_pos hshort]
    exact ((hstable 0).skipRange_triple 1).post fun _ s hs => ⟨0, fun h => absurd h (by omega), hs⟩
  · rw [if_neg hlong]
    have hstart : 0 < c.start / arch.wordBytes := by
      refine Nat.pos_of_ne_zero fun h0 => zero_notMem_words hsegs (alignOk_wordBytes arch) hindex
        (segmentWords_subset hseg ?_)
      rw [hwords, List.mem_range'_1]
      omega
    rw [hwords, List.length_range'] at hbody ⊢
    refine (sparseBlocks_triple hcpu hstart hlen hstable fun j hj => hbody j _ hj ?_).bind
      fun _ => Triple.pure ?_
    · have hlt : o + j * n < c.stop / arch.wordBytes + 1 - c.start / arch.wordBytes := by
        obtain rfl | hj := hj
        · omega
        · omega
      rw [List.getElem?_range' hlt, Nat.one_mul, Nat.add_assoc]
    · rintro s ⟨i, hi, hs⟩
      exact ⟨i + 1, fun _ j hj => Nat.lt_succ_of_le (hi j hj), hs⟩

end

/-! ### Properties of the log -/

/-- The word is written with the value, and later checked for it. In between, the passes over the
other words have run, which is what the test is for; a check whose value has been written by
another word's pass does not count. -/
def WrittenThenChecked (log : List (Event arch)) (p : ℕ) (value : Testword arch) : Prop :=
  [.write p value, .check p value].Sublist log

/-- The word is not checked. -/
def NeverChecked (log : List (Event arch)) (p : ℕ) : Prop := ∀ value, .check p value ∉ log

/-- Adding the event keeps the property. -/
def KeptBy (A : List (Event arch) → Prop) (e : Event arch) : Prop := ∀ log, A log → A (log ++ [e])

theorem keptBy_sublist (w : List (Event arch)) (e : Event arch) : KeptBy w.Sublist e :=
  fun log h => h.trans (List.sublist_append_left log [e])

theorem keptBy_neverChecked {p : ℕ} {e : Event arch} (he : ∀ value, e ≠ .check p value) :
    KeptBy (NeverChecked · p) e := by
  intro log h value hmem
  obtain hmem | hmem := List.mem_append.mp hmem
  · exact h value hmem
  · exact he value (List.mem_singleton.mp hmem).symm

section

variable {A : List (Event arch) → Prop} {R : Exit → TestState arch → Prop} {p : ℕ}
  {value : Testword arch}

theorem KeptBy.stable (h : KeptBy A .tick) :
    Stable env arch.wordBytes (env.CanExit arch.wordBytes) fun s => A s.log :=
  ⟨fun _ hs => hs, fun s hs => h s.log hs, fun _ _ hs => hs, fun _ _ _ hexit => hexit⟩

theorem KeptBy.writeWord_triple (h : KeptBy A (.write p value)) :
    Triple (fun s => A s.log) (writeWord p value) (fun _ s => A s.log) R :=
  Triple.modify fun s hs => h s.log hs

theorem KeptBy.flushCaches_triple (h : KeptBy A .flush) :
    Triple (fun s => A s.log) (flushCaches env) (fun _ s => A s.log) R :=
  Triple.ite (fun _ => Triple.modify fun s hs => h s.log hs) fun _ => Triple.pure fun _ hs => hs

/-- A check adds its event, and possibly a report. -/
theorem checkWord_log_triple {B : List (Event arch) → Prop}
    (hcheck : ∀ log, A log → B (log ++ [.check p value]))
    (herror : ∀ bad, KeptBy B (.dataError p value bad true)) :
    Triple (fun s => A s.log) (checkWord env p value true) (fun _ s => B s.log) R := by
  refine checkWord_triple fun s hs => ?_
  have hB := hcheck s.log hs
  rw [TestState.checked]
  split
  · exact herror _ _ hB
  · exact hB

/-- The pass that writes the other words does nothing but write. -/
theorem restSegment_triple (hcpu : 0 ≤ env.myCpu) (hsegs : SegmentsOk arch env.vmMap)
    (hindex : env.cfg.IndexOk env.myCpu) (hn : 0 < n) {seg : VmSegment} (hseg : seg ∈ env.vmMap)
    {pattern2 : Testword arch} (htick : KeptBy A .tick)
    (hwrite : ∀ q, KeptBy A (.write q pattern2)) :
    Triple (fun s => A s.log) (restSegment env n o pattern2 seg) (fun _ s => A s.log)
      (env.CanExit arch.wordBytes) := by
  have hstable : Stable env arch.wordBytes (env.CanExit arch.wordBytes)
      fun s : TestState arch => A s.log := htick.stable
  refine (hstable.chunkOf_triple hseg).bind fun c => Triple.of_imp fun hc => ?_
  obtain ⟨hshort, -⟩ | ⟨hlong, hlen, -⟩ :=
    calculateChunk_cases hsegs hindex (alignOk_wordBytes arch) hn hseg hc
  · rw [if_pos hshort]
    exact hstable.skipRange_triple 1
  · rw [if_neg hlong]
    have hinv : LoopInv env arch.wordBytes (env.CanExit arch.wordBytes)
        fun pe (r : ℕ × ℕ) (s : TestState arch) => r.1 = pe ∧ A s.log :=
      ⟨fun _ _ => hstable.and_left _, fun h => absurd hcpu (by omega)⟩
    have hpos := env.spinSize_pos
    refine Triple.pre ((hinv.blocksUp (fun _ pe pe' r hlo hhi hpe => ?_) _).bind fun _ =>
      Triple.pure fun s hs => hs.2) fun s hs => ⟨rfl, hs⟩
    refine Triple.of_imp fun hr => ?_
    rw [hr]
    refine Triple.doWhileUp (I := fun _ _ (s : TestState arch) => A s.log) (by omega)
      (fun q _ _ k => ?_) r.2
    exact Triple.ite (fun _ => (hwrite q).writeWord_triple.bind fun _ => Triple.pure fun s hs => hs)
      fun _ => Triple.pure fun s hs => hs

end

/-! ### One pass over the sparse words -/

section

variable (hsegs : SegmentsOk arch env.vmMap) (hindex : env.cfg.IndexOk env.myCpu)
  {A B : List (Event arch) → Prop} {seg : VmSegment} {body : ℕ → TestM arch Unit} {k p : ℕ}

include hsegs hindex

/-- The pass does not meet a word of the last `n` locations of a chunk whose index is not below
`n`. -/
theorem sparseSegment_ne (hseg : seg ∈ env.vmMap)
    (hk : (env.segmentWords arch.wordBytes seg)[k]? = some p) (hge : n ≤ k)
    (hend : (env.segmentWords arch.wordBytes seg).length ≤ k + n) (ho : o < n) {t : VmSegment}
    (ht : t ∈ env.vmMap) {j q : ℕ}
    (hj : IsLocation n o (env.segmentWords arch.wordBytes t).length j)
    (hq : (env.segmentWords arch.wordBytes t)[o + j * n]? = some q) : q ≠ p := by
  rintro rfl
  have halign := alignOk_wordBytes arch
  obtain rfl : t = seg := eq_of_mem_segmentWords hsegs halign hindex ht hseg
    (List.mem_of_getElem? hq) (List.mem_of_getElem? hk)
  have hnodup : (env.segmentWords arch.wordBytes t).Nodup :=
    (List.nodup_flatMap.mp (nodup_words hsegs halign hindex)).1 t hseg
  have heq : o + j * n = k :=
    (List.getElem?_inj (List.getElem?_eq_some_iff.mp hq).1 hnodup).mp (by rw [hq, hk])
  obtain rfl | hj := hj
  · omega
  · omega

variable (hcpu : 0 ≤ env.myCpu)

include hcpu

/-- A property that the body keeps at every sparse location is kept. -/
theorem sparseSegment_keep (ho : o < n) (hseg : seg ∈ env.vmMap) (htick : KeptBy A .tick)
    (hbody : ∀ j q, IsLocation n o (env.segmentWords arch.wordBytes seg).length j →
      (env.segmentWords arch.wordBytes seg)[o + j * n]? = some q →
      Triple (fun s => A s.log) (body q) (fun _ s => A s.log) (env.CanExit arch.wordBytes)) :
    Triple (fun s => A s.log) (sparseSegment env n hn o body seg) (fun _ s => A s.log)
      (env.CanExit arch.wordBytes) :=
  (sparseSegment_triple hsegs hindex hcpu ho hseg (I := fun _ s => A s.log)
    (fun _ => htick.stable) fun j q hj hq => (hbody j q hj hq).pre fun _ hs => hs.elim id id).post
    fun _ _ ⟨_, _, hs⟩ => hs

/-- The pass meets the word with the index `k` if that is below `n`, or if there are more than `n`
words from it to the end of the chunk. -/
theorem sparseSegment_meets (hseg : seg ∈ env.vmMap)
    (hlen : n ≤ (env.segmentWords arch.wordBytes seg).length)
    (hk : (env.segmentWords arch.wordBytes seg)[k]? = some p)
    (hloc : k < n ∨ k + n < (env.segmentWords arch.wordBytes seg).length)
    (hA : KeptBy A .tick) (hB : KeptBy B .tick)
    (hbodyA : ∀ q, Triple (fun s => A s.log) (body q) (fun _ s => A s.log)
      (env.CanExit arch.wordBytes))
    (hbodyB : ∀ q, Triple (fun s => B s.log) (body q) (fun _ s => B s.log)
      (env.CanExit arch.wordBytes))
    (hbody : Triple (fun s => A s.log) (body p) (fun _ s => B s.log)
      (env.CanExit arch.wordBytes)) :
    Triple (fun s => A s.log) (sparseSegment env n hn (k % n) body seg) (fun _ s => B s.log)
      (env.CanExit arch.wordBytes) := by
  have hmod : k % n + k / n * n = k := Nat.mod_add_div' k n
  have hloc' : IsLocation n (k % n) (env.segmentWords arch.wordBytes seg).length (k / n) := by
    obtain hlt | hgt := hloc
    · exact .inl (Nat.div_eq_of_lt hlt)
    · exact .inr (by omega)
  -- the location of the word is the one with the number `k / n`
  let I : ℕ → TestState arch → Prop := fun j s => if k / n < j then B s.log else A s.log
  have hIA : ∀ j ≤ k / n, I j = fun s => A s.log := fun j hj =>
    funext fun s => if_neg (by omega)
  have hIB : ∀ j, k / n < j → I j = fun s => B s.log := fun j hj => funext fun s => if_pos hj
  refine Triple.pre ((sparseSegment_triple hsegs hindex hcpu (Nat.mod_lt k hn) hseg (I := I)
    (fun j => ?_) fun j q hj hq => ?_).post ?_) fun s hs => ?_
  · obtain hlt | hle := Nat.lt_or_ge (k / n) j
    · rw [hIB j hlt]
      exact hB.stable
    · rw [hIA j hle]
      exact hA.stable
  · obtain hlt | heq | hgt := Nat.lt_trichotomy j (k / n)
    · rw [hIA j (by omega), hIA (j + 1) hlt]
      exact (hbodyA q).pre fun s hs => hs.elim id id
    · rw [heq, hmod, hk] at hq
      obtain rfl := Option.some.inj hq
      rw [hIA j (by omega), hIB (j + 1) (by omega)]
      exact fun s hs => hs.elim (hbody s) (hbodyB p s)
    · rw [hIB j hgt, hIB (j + 1) (by omega)]
      exact (hbodyB q).pre fun s hs => hs.elim id id
  · rintro _ s ⟨i, hi, hs⟩
    rwa [hIB i (hi hlen _ hloc')] at hs
  · rwa [hIA 0 (Nat.zero_le _)]

end

/-! ### The whole test -/

section

variable (hsegs : SegmentsOk arch env.vmMap) (hindex : env.cfg.IndexOk env.myCpu)
  (hcpu : 0 ≤ env.myCpu) {seg : VmSegment} {k p : ℕ} (iterations : ℕ)
  (pattern1 pattern2 : Testword arch)

include hsegs hindex hcpu

/-- A word that is no sparse location of any chunk is never checked. -/
theorem testModuloN_neverChecked (ho : o < n)
    (hne : ∀ t ∈ env.vmMap, ∀ j q,
      IsLocation n o (env.segmentWords arch.wordBytes t).length j →
      (env.segmentWords arch.wordBytes t)[o + j * n]? = some q → q ≠ p) :
    Triple (fun s => NeverChecked s.log p)
      (testModuloN env iterations pattern1 pattern2 n hn o)
      (fun _ s => NeverChecked s.log p) (env.CanExit arch.wordBytes) := by
  have hwrite : ∀ q value, KeptBy (NeverChecked · p) (.write q value : Event arch) :=
    fun q value => keptBy_neverChecked nofun
  have htick : KeptBy (NeverChecked · p) (.tick : Event arch) := keptBy_neverChecked nofun
  refine (Triple.foldlM_keep fun t ht => sparseSegment_keep hsegs hindex hcpu ho ht htick
    fun j q hj hq => (hwrite q pattern1).writeWord_triple).bind fun _ => ?_
  refine (Triple.foldlM_keep fun _ _ => Triple.foldlM_keep fun t ht =>
    restSegment_triple hcpu hsegs hindex hn ht htick fun q => hwrite q pattern2).bind fun _ => ?_
  have hflush : KeptBy (NeverChecked · p) (.flush : Event arch) := keptBy_neverChecked nofun
  refine hflush.flushCaches_triple.bind fun _ => ?_
  refine Triple.foldlM_keep fun t ht => sparseSegment_keep hsegs hindex hcpu ho ht htick
    fun j q hj hq => ?_
  have hcheck : KeptBy (NeverChecked · p) (.check q pattern1) :=
    keptBy_neverChecked fun value heq => by
      injection heq with hqp
      exact hne t ht j q hj hq hqp
  exact checkWord_log_triple (A := (NeverChecked · p)) (B := (NeverChecked · p)) hcheck
    fun bad => keptBy_neverChecked nofun

/-- The run with the remainder of `k` as offset writes and checks the word with the index `k` if
that is below `n`, or if there are more than `n` words from it to the end of the chunk. -/
theorem testModuloN_covers (hseg : seg ∈ env.vmMap)
    (hlen : n ≤ (env.segmentWords arch.wordBytes seg).length)
    (hk : (env.segmentWords arch.wordBytes seg)[k]? = some p)
    (hloc : k < n ∨ k + n < (env.segmentWords arch.wordBytes seg).length) :
    Triple (fun _ => True) (testModuloN env iterations pattern1 pattern2 n hn (k % n))
      (fun _ s => WrittenThenChecked s.log p pattern1) (env.CanExit arch.wordBytes) := by
  let written : List (Event arch) → Prop := [Event.write p pattern1].Sublist
  have hkeep : ∀ e, KeptBy written e := keptBy_sublist [.write p pattern1]
  have hkeep' : ∀ e, KeptBy (fun log => WrittenThenChecked log p pattern1) e :=
    keptBy_sublist [.write p pattern1, .check p pattern1]
  have hnil : ∀ e, KeptBy (fun _ => True) (e : Event arch) := fun e log h => h
  refine (Triple.foldlM_of_mem (Q := fun s => written s.log) hseg ?_ ?_ ?_).bind fun _ => ?_
  · exact fun t ht => sparseSegment_keep hsegs hindex hcpu (Nat.mod_lt k hn) ht (hnil .tick)
      fun j q _ _ => (hnil _).writeWord_triple
  · exact fun t ht => sparseSegment_keep hsegs hindex hcpu (Nat.mod_lt k hn) ht (hkeep .tick)
      fun j q _ _ => (hkeep _).writeWord_triple
  · refine sparseSegment_meets hsegs hindex hcpu hseg hlen hk hloc (hnil .tick) (hkeep .tick)
      (fun q => (hnil _).writeWord_triple) (fun q => (hkeep _).writeWord_triple) ?_
    exact Triple.modify fun s _ => List.sublist_append_right s.log [.write p pattern1]
  refine (Triple.foldlM_keep fun _ _ => Triple.foldlM_keep fun t ht =>
    restSegment_triple hcpu hsegs hindex hn ht (hkeep .tick) fun q => hkeep _).bind fun _ => ?_
  refine (hkeep .flush).flushCaches_triple.bind fun _ => ?_
  refine Triple.foldlM_of_mem hseg ?_ ?_ ?_
  · exact fun t ht => sparseSegment_keep hsegs hindex hcpu (Nat.mod_lt k hn) ht (hkeep .tick)
      fun j q _ _ => checkWord_log_triple (hkeep _) fun bad => hkeep _
  · exact fun t ht => sparseSegment_keep hsegs hindex hcpu (Nat.mod_lt k hn) ht (hkeep' .tick)
      fun j q _ _ => checkWord_log_triple (hkeep' _) fun bad => hkeep' _
  · exact sparseSegment_meets hsegs hindex hcpu hseg hlen hk hloc (hkeep .tick) (hkeep' .tick)
      (fun q => checkWord_log_triple (hkeep _) fun bad => hkeep _)
      (fun q => checkWord_log_triple (hkeep' _) fun bad => hkeep' _)
      (checkWord_log_triple (fun log h => h.append (List.Sublist.refl _)) fun bad => hkeep' _)

/-- Which words the run with their own offset tests. -/
theorem testModuloN_covers_iff (hbail : ∀ i, env.bail i = false) (hseg : seg ∈ env.vmMap)
    (hlen : n ≤ (env.segmentWords arch.wordBytes seg).length)
    (hk : (env.segmentWords arch.wordBytes seg)[k]? = some p) (store : ℕ → Testword arch) :
    WrittenThenChecked
        ((testModuloN env iterations pattern1 pattern2 n hn (k % n)).exec (.init store)).2.log
        p pattern1 ↔
      k < n ∨ k + n < (env.segmentWords arch.wordBytes seg).length := by
  have hexit := not_canExit hsegs (alignOk_wordBytes arch) hindex hbail
  refine ⟨fun h => ?_, fun hloc => ?_⟩
  · by_contra hloc
    have hnever : NeverChecked
        ((testModuloN env iterations pattern1 pattern2 n hn (k % n)).exec (.init store)).2.log p :=
      (testModuloN_neverChecked hsegs hindex hcpu iterations pattern1 pattern2 (Nat.mod_lt k hn)
        fun t ht j q => sparseSegment_ne hsegs hindex hseg hk (by omega) (by omega)
          (Nat.mod_lt k hn) ht).final
        (I := fun s => NeverChecked s.log p) (fun _ => List.not_mem_nil) (fun _ _ hs => hs)
        fun e s hs => absurd hs (hexit e s)
    exact hnever pattern1 (h.subset (List.mem_cons_of_mem _ List.mem_cons_self))
  · exact (testModuloN_covers hsegs hindex hcpu iterations pattern1 pattern2 hseg hlen hk
      hloc).final (I := fun s => WrittenThenChecked s.log p pattern1) trivial (fun _ _ hs => hs)
      fun e s hs => absurd hs (hexit e s)

end

/-- **Coverage.** The runs for all offsets test every word of a chunk of at least `n` words if and
only if the chunk has exactly `n` words.

A word is to be tested in the run whose offset is the remainder of its index. In a chunk of
exactly `n` words each run has a single sparse word, the offset itself, which is always written
and checked. A longer chunk has a word `n` locations below its end or above whose turn never
comes. -/
theorem testModuloN_coversChunk_iff (hsegs : SegmentsOk arch env.vmMap)
    (hindex : env.cfg.IndexOk env.myCpu) (hcpu : 0 ≤ env.myCpu) (hbail : ∀ i, env.bail i = false)
    (hn : 0 < n) {seg : VmSegment} (hseg : seg ∈ env.vmMap)
    (hlen : n ≤ (env.segmentWords arch.wordBytes seg).length) (iterations : ℕ)
    (pattern1 pattern2 : Testword arch) (store : ℕ → ℕ → Testword arch) :
    (∀ offset < n, ∀ k p, k % n = offset →
      (env.segmentWords arch.wordBytes seg)[k]? = some p →
      WrittenThenChecked ((testModuloN env iterations pattern1 pattern2 n hn offset).exec
        (.init (store offset))).2.log p pattern1) ↔
      (env.segmentWords arch.wordBytes seg).length = n := by
  constructor
  · intro h
    by_contra hne
    -- the last word of the chunk is not tested
    have hlast := List.getElem?_eq_getElem (l := env.segmentWords arch.wordBytes seg)
      (Nat.sub_lt (by omega) Nat.one_pos)
    have hloc := (testModuloN_covers_iff hsegs hindex hcpu iterations pattern1 pattern2 hbail hseg
      hlen hlast _).mp (h _ (Nat.mod_lt _ hn) _ _ rfl hlast)
    omega
  · rintro heq offset - k p rfl hk
    exact (testModuloN_covers_iff hsegs hindex hcpu iterations pattern1 pattern2 hbail hseg hlen hk
      _).mpr (.inl (heq ▸ (List.getElem?_eq_some_iff.mp hk).1))

/-- The theorem at the last word of a chunk of three words. -/
theorem testModuloN_coversChunk_threeWords :
    WrittenThenChecked
      ((testModuloN (sampleEnv fun _ v => v) 2 0#64 (~~~0#64) 3 (by decide) 2).exec
        (.init fun _ => 0#64)).2.log 0x202 0#64 :=
  (testModuloN_coversChunk_iff (segmentsOk_sampleEnv _) (.inl rfl) (by decide) (fun _ => rfl)
    (by decide) (show ⟨0x1, 0x1000, 0x1010, 0⟩ ∈ _ from List.mem_cons_self) (by decide) 2 0#64
    (~~~0#64) fun _ _ => 0#64).mpr (by decide) 2 (by decide) 2 0x202 rfl (by decide)

/-- Every 20th word of a chunk of 64 KB: with the offset 11, the last word is not tested. -/
theorem testModuloN_not_coversChunk :
    20 ≤ ((sampleEnv fun _ v => v).segmentWords 8 ⟨0x10, 0x10000, 0x1fff8, 0⟩).length ∧
    ¬ ∀ offset < 20, ∀ k p, k % 20 = offset →
      ((sampleEnv fun _ v => v).segmentWords 8 ⟨0x10, 0x10000, 0x1fff8, 0⟩)[k]? = some p →
      WrittenThenChecked
        ((testModuloN (sampleEnv fun _ v => v) 2 0#64 (~~~0#64) 20 (by decide) offset).exec
          (.init fun _ => 0#64)).2.log p 0#64 := by
  have hwords : (sampleEnv fun _ v => v).segmentWords 8 ⟨0x10, 0x10000, 0x1fff8, 0⟩ =
      List.range' 0x2000 0x2000 :=
    segmentWords_of_le (c := ⟨0x10000, 0x1fff8⟩) rfl (by decide)
  have hlen : ((sampleEnv fun _ v => v).segmentWords 8 ⟨0x10, 0x10000, 0x1fff8, 0⟩).length =
      0x2000 := by rw [hwords, List.length_range']
  have hlast : ((sampleEnv fun _ v => v).segmentWords 8 ⟨0x10, 0x10000, 0x1fff8, 0⟩)[0x1fff]? =
      some 0x3fff := by rw [hwords, List.getElem?_range' (by decide)]
  refine ⟨by omega, fun h => ?_⟩
  have hloc := (testModuloN_covers_iff (segmentsOk_sampleEnv _) (.inl rfl) (by decide) 2 0#64
    (~~~0#64) (fun _ => rfl) (List.mem_cons_of_mem _ List.mem_cons_self)
    (by change 20 ≤ ((sampleEnv fun _ v => v).segmentWords 8 _).length; omega) hlast
    fun _ => 0#64).mp (h 11 (by decide) 0x1fff 0x3fff (by decide) hlast)
  change 0x1fff < 20 ∨ 0x1fff + 20 < ((sampleEnv fun _ v => v).segmentWords 8 _).length at hloc
  omega

end Memtest
