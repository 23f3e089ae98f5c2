import Memtest.Tests.Words
import Memtest.Tests.Progress
import Memtest.Tests.BitFade
import Memtest.Windows.View

/-!
# Filling and checking in separate stages

The tests with several stages fill all windows before they check any, so what one stage leaves has
to be said of the whole run of it: a fill writes to its words, to each of them its value and nothing
else, and a check of words that hold their values reports nothing and writes nothing.
-/

namespace Memtest

open Hoare

variable {arch : Arch} {env : TestEnv arch} {words : ℕ → Prop} {val : ℕ → Testword arch}

/-- What a run from an empty log has done when it ends. -/
structure Fills (words : ℕ → Prop) (val : ℕ → Testword arch) (m : TestM arch Unit) : Prop where
  writes : ∀ store doTicks p value, .write p value ∈ (m.exec ⟨store, [], 0, doTicks, []⟩).2.log →
    words p ∧ value = val p
  noDataError : ∀ store doTicks, (m.exec ⟨store, [], 0, doTicks, []⟩).2.NoDataError
  all : ∀ store doTicks, (m.exec ⟨store, [], 0, doTicks, []⟩).1 = .ok () →
    ∀ p, words p → .write p (val p) ∈ (m.exec ⟨store, [], 0, doTicks, []⟩).2.log

/-- What a run from an empty log does if the words hold their values. -/
structure Checks (words : ℕ → Prop) (val : ℕ → Testword arch) (m : TestM arch Unit) : Prop where
  writes : ∀ store doTicks, (∀ p, words p → store p = val p) →
    ∀ p value, .write p value ∉ (m.exec ⟨store, [], 0, doTicks, []⟩).2.log
  noDataError : ∀ store doTicks, (∀ p, words p → store p = val p) →
    (m.exec ⟨store, [], 0, doTicks, []⟩).2.NoDataError

/-! ### Assertions -/

/-- How far a fill has come. -/
structure Filling (words : ℕ → Prop) (val : ℕ → Testword arch) (done : ℕ → Prop)
    (s : TestState arch) : Prop where
  writes : ∀ p value, .write p value ∈ s.log → words p ∧ value = val p
  noDataError : s.NoDataError
  all : ∀ p, done p → .write p (val p) ∈ s.log

/-- A check has found nothing. -/
structure Checking (words : ℕ → Prop) (val : ℕ → Testword arch) (s : TestState arch) : Prop where
  store : ∀ p, words p → s.store p = val p
  writes : ∀ p value, .write p value ∉ s.log
  noDataError : s.NoDataError

section

variable {s t : TestState arch} {done done' : ℕ → Prop} {p : ℕ}

theorem Filling.mono (h : Filling words val done s) (hdone : ∀ q, done' q → done q) :
    Filling words val done' s :=
  ⟨h.writes, h.noDataError, fun q hq => h.all q (hdone q hq)⟩

/-- Other events do not matter. -/
theorem Filling.of_log (h : Filling words val done s) {e : Event arch} (hlog : t.log = s.log ++ [e])
    (hwrite : ∀ q value, e ≠ .write q value)
    (herror : ∀ q good bad useForBadram, e ≠ .dataError q good bad useForBadram) :
    Filling words val done t where
  writes q value hmem := by
    rw [hlog, List.mem_append, List.mem_singleton] at hmem
    exact hmem.elim (h.writes q value) fun heq => absurd heq.symm (hwrite q value)
  noDataError q good bad b hmem := by
    rw [hlog, List.mem_append, List.mem_singleton] at hmem
    exact hmem.elim (h.noDataError q good bad b) fun heq => herror q good bad b heq.symm
  all q hq := by
    rw [hlog]
    exact List.mem_append_left _ (h.all q hq)

theorem Filling.write (h : Filling words val done s) (hp : words p) :
    Filling words val (fun q => done q ∨ q = p) (s.set p (val p)) where
  writes q value hmem := by
    obtain hmem | heq := List.mem_append.mp hmem
    · exact h.writes q value hmem
    · obtain ⟨rfl, rfl⟩ : q = p ∧ value = val p := by simpa using heq
      exact ⟨hp, rfl⟩
  noDataError q good bad b hmem := by
    obtain hmem | heq := List.mem_append.mp hmem
    · exact h.noDataError q good bad b hmem
    · simp at heq
  all q hq := by
    obtain hq | rfl := hq
    · exact List.mem_append_left _ (h.all q hq)
    · exact List.mem_append_right _ List.mem_cons_self

theorem Checking.of_log (h : Checking words val s) {e : Event arch} (hstore : t.store = s.store)
    (hlog : t.log = s.log ++ [e]) (hwrite : ∀ q value, e ≠ .write q value)
    (herror : ∀ q good bad useForBadram, e ≠ .dataError q good bad useForBadram) :
    Checking words val t where
  store q hq := by rw [hstore]; exact h.store q hq
  writes q value hmem := by
    rw [hlog, List.mem_append, List.mem_singleton] at hmem
    exact hmem.elim (h.writes q value) fun heq => hwrite q value heq.symm
  noDataError q good bad b hmem := by
    rw [hlog, List.mem_append, List.mem_singleton] at hmem
    exact hmem.elim (h.noDataError q good bad b) fun heq => herror q good bad b heq.symm

/-- On a memory without faults a word that holds its value is not reported. -/
theorem Checking.checked (h : Checking words val s) (hp : words p)
    (hmem : ∀ p v, env.readBack p v = v) : Checking words val (s.checked env p (val p) true) := by
  rw [TestState.checked, if_neg (by rw [hmem, h.store p hp]; exact fun hne => hne rfl)]
  exact h.of_log rfl rfl (by simp) (by simp)

theorem Filling.stable (chunkAlign : ℕ) (done : ℕ → Prop) :
    Stable env chunkAlign (fun _ => Filling words val fun _ => False) (Filling words val done) where
  countTick _ h := ⟨h.writes, h.noDataError, h.all⟩
  doTick _ h := h.of_log (e := .tick) rfl nofun nofun
  useSlot _ _ h := ⟨h.writes, h.noDataError, h.all⟩
  exit _ _ h _ := h.mono fun _ hq => hq.elim

theorem Checking.stable (chunkAlign : ℕ) :
    Stable env chunkAlign (fun _ => Checking words val) (Checking words val) where
  countTick _ h := ⟨h.store, h.writes, h.noDataError⟩
  doTick _ h := h.of_log (e := .tick) rfl rfl nofun nofun
  useSlot _ _ h := ⟨h.store, h.writes, h.noDataError⟩
  exit _ _ h _ := h

end

/-- A fill is a program that keeps its assertion and writes all its words. -/
theorem Fills.of_triple {m : TestM arch Unit}
    (h : Triple (Filling words val fun _ => False) m (fun _ => Filling words val words)
      fun _ => Filling words val fun _ => False) : Fills words val m := by
  have hinit : ∀ store doTicks, Filling words val (fun _ => False)
      (⟨store, [], 0, doTicks, []⟩ : TestState arch) := fun store doTicks =>
    ⟨fun p value hmem => absurd hmem List.not_mem_nil,
      fun p good bad b hmem => absurd hmem List.not_mem_nil, fun q hq => hq.elim⟩
  have hfinal : ∀ store doTicks, Filling words val (fun _ => False)
      (m.exec ⟨store, [], 0, doTicks, []⟩).2 := fun store doTicks =>
    h.final (hinit store doTicks) (fun _ t ht => ht.mono fun q hq => hq.elim) fun _ t ht => ht
  refine ⟨fun store doTicks => (hfinal store doTicks).writes,
    fun store doTicks => (hfinal store doTicks).noDataError, fun store doTicks hok => ?_⟩
  have hrun := h _ (hinit store doTicks)
  revert hok hrun
  obtain ⟨r | r, t⟩ := m.exec ⟨store, [], 0, doTicks, []⟩
  · exact fun hok => nomatch hok
  · exact fun _ hrun => hrun.all

theorem Checks.of_triple {m : TestM arch Unit}
    (h : Triple (Checking words val) m (fun _ => Checking words val)
      fun _ => Checking words val) : Checks words val m := by
  have hfinal : ∀ store doTicks, (∀ p, words p → store p = val p) →
      Checking words val (m.exec ⟨store, [], 0, doTicks, []⟩).2 := fun store doTicks hstore =>
    h.final ⟨hstore, fun p value => List.not_mem_nil, fun p good bad b => List.not_mem_nil⟩
      (fun _ t ht => ht) fun _ t ht => ht
  exact ⟨fun store doTicks hstore => (hfinal store doTicks hstore).writes,
    fun store doTicks hstore => (hfinal store doTicks hstore).noDataError⟩

/-! ### Whole segments -/

section

variable {R : Exit → TestState arch → Prop} {I : ℕ → TestState arch → Prop}
  {Q : TestState arch → Prop} {body : ℕ → TestM arch Unit} {seg : VmSegment}

/-- The loop over the words of a segment. The assertion is indexed by the next word. -/
theorem wholeSegment_triple (chunkAlign : ℕ) (hcpu : 0 ≤ env.myCpu)
    (hI : ∀ k, Stable env chunkAlign R (I k))
    (hQ : Stable env chunkAlign R Q)
    (hbody : ∀ p, seg.HasWord arch p → Triple (I p) (body p) (fun _ => I (p + 1)) R)
    (hend : ∀ k s, (∀ p, seg.HasWord arch p → p < k) → I k s → Q s) :
    Triple (I (seg.start / arch.wordBytes)) (wholeSegment env body seg) (fun _ => Q) R := by
  rw [wholeSegment]
  generalize hstart : seg.start / arch.wordBytes = start
  generalize hstop : seg.stop / arch.wordBytes = stop
  have hword : ∀ p, start ≤ p → p = start ∨ p ≤ stop → seg.HasWord arch p := fun p hlo hhi => by
    rw [← hstart, ← hstop] at hhi
    exact ⟨by omega, hhi⟩
  have hlast : ∀ k, start < k → stop < k → ∀ s, I k s → Q s := fun k h1 h2 s =>
    hend k s fun p hp => by
      have h3 := hp.2
      omega
  have hJ : LoopInv env chunkAlign R fun k (r : ℕ × Unit) s => r.1 = k ∧ I k s :=
    ⟨fun k r => (hI k).and_left _, fun hneg => absurd hneg (by omega)⟩
  refine Triple.bind (Q := fun _ => Q) (Triple.pre (hJ.blocksUp_last (fun _ => hQ)
    (fun hneg => absurd hneg (by omega)) (fun _ pe r hlo hle => ?_) (fun _ pe r hlo hhi hlt => ?_)
    (start, ())) fun s hs => ⟨rfl, hs⟩) fun _ => Triple.pure fun s hs => hs
  · have hpos := env.spinSize_pos
    refine Triple.of_imp fun hr => ?_
    rw [hr]
    refine (Triple.doWhileUp (I := fun k _ => I k) (by omega)
      (fun q hq hq' _ => hbody q (hword q (by omega) (.inr (by omega)))) r.2).post
      fun r' s hs => ?_
    rw [show pe + (env.spinSize - 1) + 1 = pe + env.spinSize by omega] at hs
    exact hs
  · refine Triple.of_imp fun hr => ?_
    rw [hr]
    obtain hgt | hle := Nat.lt_or_ge stop pe
    · -- the segment ends before it starts, and its first word is dealt with all the same
      rw [Hoare.doWhileUp]
      refine (hbody pe (hword pe hlo (by omega))).bind fun _ => ?_
      rw [if_neg (by omega)]
      exact Triple.pure fun s hs => hlast (pe + 1) (by omega) (by omega) s hs
    · exact (Triple.doWhileUp (I := fun k _ => I k) hle
        (fun q hq hq' _ => hbody q (hword q (by omega) (.inr hq'))) r.2).post
        fun r' s hs => hlast (stop + 1) (by omega) (by omega) s hs.2

end

/-! ### The tests -/

section

/-- The words of a test that goes through whole segments. -/
def TestEnv.WholeWords (env : TestEnv arch) (p : ℕ) : Prop :=
  ∃ seg ∈ env.vmMap, seg.HasWord arch p

/-- The words of the segments that have been dealt with. -/
def wordsOf (arch : Arch) (segs : List VmSegment) (p : ℕ) : Prop :=
  ∃ seg ∈ segs, seg.HasWord arch p

theorem wordsOf_concat {segs : List VmSegment} {seg : VmSegment} {p : ℕ} :
    wordsOf arch (segs ++ [seg]) p ↔ wordsOf arch segs p ∨ seg.HasWord arch p := by
  simp [wordsOf, or_and_right, exists_or]

theorem flushCaches_filling (done : ℕ → Prop) {R : Exit → TestState arch → Prop} :
    Triple (Filling words val done) (flushCaches env) (fun _ => Filling words val done) R :=
  Triple.ite (fun _ => Triple.modify fun _ h => h.of_log (e := .flush) rfl nofun nofun)
    fun _ => Triple.pure fun _ h => h

/-- Filling with own addresses. -/
theorem ownAddrFill_fills (hcpu : 0 ≤ env.myCpu) (offset : Testword arch) :
    Fills env.WholeWords (ownAddress offset) (ownAddrFill env offset) := by
  refine Fills.of_triple ((Triple.pre (Triple.foldlM
    (I := fun before _ => Filling env.WholeWords (ownAddress offset) (wordsOf arch before))
    (fun before seg after hmap _ => ?_) ()) fun s h => h.mono fun p hp => ?_).bind fun _ =>
      flushCaches_filling _)
  · have hseg : seg ∈ env.vmMap := by simp [hmap]
    -- the words of the segment below the next one have been written
    refine Triple.pre (wholeSegment_triple arch.wordBytes hcpu
      (I := fun k => Filling env.WholeWords (ownAddress offset) fun p => wordsOf arch before p ∨
        seg.HasWord arch p ∧ p < k) (fun k => Filling.stable _ _) (Filling.stable _ _)
      (fun p hp => Triple.modify fun s h => (h.write ⟨seg, hseg, hp⟩).mono fun q hq => ?_)
      fun k s hk h => h.mono fun q hq => ?_) fun s h => h.mono fun q hq => ?_
    · obtain hq | ⟨hq, hlt⟩ := hq
      · exact .inl (.inl hq)
      · obtain hlt | heq := Nat.lt_succ_iff_lt_or_eq.mp hlt
        · exact .inl (.inr ⟨hq, hlt⟩)
        · exact .inr heq
    · obtain hq | hq := wordsOf_concat.mp hq
      · exact .inl hq
      · exact .inr ⟨hq, hk q hq⟩
    · obtain hq | ⟨hq, hlt⟩ := hq
      · exact hq
      · exact absurd hq.1 (by omega)
  · obtain ⟨seg, hseg, -⟩ := hp
    exact absurd hseg List.not_mem_nil

/-- Checking for own addresses. -/
theorem ownAddrCheck_checks (hcpu : 0 ≤ env.myCpu) (hmem : ∀ p v, env.readBack p v = v)
    (offset : Testword arch) :
    Checks env.WholeWords (ownAddress offset) (ownAddrCheck env offset) :=
  Checks.of_triple (Triple.foldlM_keep fun seg hseg =>
    wholeSegment_triple arch.wordBytes hcpu
      (I := fun _ => Checking env.WholeWords (ownAddress offset)) (fun _ => Checking.stable _)
      (Checking.stable _) (fun _ hp => checkWord_triple fun _ h => h.checked ⟨seg, hseg, hp⟩ hmem)
      fun _ _ _ h => h)

/-- A round fills the chunks of the CPU. -/
theorem fadeFill_fills (hcpu : 0 ≤ env.myCpu) (passNum round : ℕ) :
    Fills (fun p => p ∈ env.words arch.wordBytes) (fadePattern passNum round env.vmMap)
      (fadeFill env passNum round) := by
  have hI : LoopInv env arch.wordBytes _ fun k (_ : Unit) =>
      Filling (fun p => p ∈ env.words arch.wordBytes) (fadePattern passNum round env.vmMap)
        fun p => ∃ i < k, (env.words arch.wordBytes)[i]? = some p :=
    ⟨fun _ _ => Filling.stable _ _, fun hneg => absurd hneg (by omega)⟩
  refine Fills.of_triple ((Triple.pre (hI.sweepUp _ (fun _ i p hi _ => Triple.modify fun s h =>
    (h.write (List.mem_of_getElem? hi)).mono fun q hq => ?_) ()) fun s h => h.mono fun q hq =>
      ?_).bind fun _ => Triple.pre (flushCaches_filling _) fun s h => h.mono fun q hq => ?_)
  · obtain ⟨j, hj, hget⟩ := hq
    obtain hlt | rfl := Nat.lt_succ_iff_lt_or_eq.mp hj
    · exact .inl ⟨j, hlt, hget⟩
    · exact .inr (Option.some.inj (hget.symm.trans hi))
  · obtain ⟨j, hj, hget⟩ := List.mem_iff_getElem.mp hq
    exact ⟨j, hj, List.getElem?_eq_some_iff.mpr ⟨hj, hget⟩⟩
  · obtain ⟨j, hj, -⟩ := hq
    exact absurd hj (Nat.not_lt_zero j)

theorem fadeCheck_checks (hcpu : 0 ≤ env.myCpu) (hmem : ∀ p v, env.readBack p v = v)
    (passNum round : ℕ) :
    Checks (fun p => p ∈ env.words arch.wordBytes) (fadePattern passNum round env.vmMap)
      (fadeCheck env passNum round) := by
  have hI : LoopInv env arch.wordBytes _ fun _ (_ : Unit) =>
      Checking (fun p => p ∈ env.words arch.wordBytes) (fadePattern passNum round env.vmMap) :=
    ⟨fun _ _ => Checking.stable _, fun hneg => absurd hneg (by omega)⟩
  exact Checks.of_triple (hI.sweepUp _ (fun _ i p hi _ => checkWord_triple fun _ h =>
    h.checked (List.mem_of_getElem? hi) hmem) ())

/-- Waiting leaves the memory alone. -/
theorem fadeDelay_checks (words : ℕ → Prop) (val : ℕ → Testword arch) (sleepSecs : ℕ) :
    Checks words val (fadeDelay env sleepSecs) := by
  refine Checks.of_triple ?_
  have hstable : Stable env arch.wordBytes _ (Checking words val) := Checking.stable _
  induction sleepSecs with
  | zero => exact Triple.pure fun _ h => h
  | succ n ih =>
    refine (Triple.modify (Q := fun _ => Checking words val) hstable.countTick).bind fun _ => ?_
    exact Triple.ite (fun _ => ih) fun _ => hstable.doTick_triple.bind fun _ => ih

end

end Memtest
