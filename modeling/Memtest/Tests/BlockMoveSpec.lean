import Memtest.Tests.BlockMove
import Memtest.Tests.ModuloNSpec
import Mathlib.Tactic.IntervalCases

/-!
# The block move test reports no error on a memory that works

After the fill the words of a chunk come in pairs of equal words. A move copies an even number of
words from an even offset to an even offset, so it keeps the pairs together, as long as the half
length of the block is even. It is for the last block, which ends with the chunk, and for all others
if `SPIN_SIZE` is a multiple of 4.
-/

namespace Memtest

open Hoare Xorshift

variable {arch : Arch} {env : TestEnv arch}

/-! ### Assertions about the memory -/

/-- No error has been reported, and the memory is as stated, unless this is a dummy run. In a
dummy run nothing is written, and nothing is checked either. -/
def Holding (env : TestEnv arch) (A : (ℕ → Testword arch) → Prop) (s : TestState arch) : Prop :=
  s.NoDataError ∧ (0 ≤ env.myCpu → A s.store)

section

variable {A B : (ℕ → Testword arch) → Prop}

theorem Holding.mono {s : TestState arch} (h : Holding env A s) (hAB : ∀ f, A f → B f) :
    Holding env B s :=
  ⟨h.1, fun hcpu => hAB _ (h.2 hcpu)⟩

theorem Holding.dummy {s : TestState arch} (hcpu : env.myCpu < 0) (h : Holding env A s) :
    Holding env B s :=
  ⟨h.1, fun h0 => absurd h0 (by omega)⟩

theorem Holding.stable (chunkAlign : ℕ) :
    Stable env chunkAlign (fun _ s => s.NoDataError) (Holding env A) :=
  ⟨fun _ h => h, fun _ h => ⟨h.1.of_log rfl nofun, h.2⟩, fun _ _ h => h, fun _ _ h _ => h.1⟩

theorem Holding.flushCaches_triple {R : Exit → TestState arch → Prop} :
    Triple (Holding env A) (flushCaches env) (fun _ => Holding env A) R :=
  Triple.ite (fun _ => Triple.modify fun _ h => ⟨h.1.of_log rfl nofun, h.2⟩)
    fun _ => Triple.pure fun _ h => h

end

/-! ### Pairs of words -/

/-- The first `len` words from `start` come in pairs of equal words. -/
def PairedTo (start len : ℕ) (f : ℕ → Testword arch) : Prop :=
  ∀ i, 2 * i + 1 < len → f (start + 2 * i) = f (start + 2 * i + 1)

/-- The words of a list come in pairs of equal words. -/
def Paired (ws : List ℕ) (f : ℕ → Testword arch) : Prop :=
  ∀ i p q, ws[2 * i]? = some p → ws[2 * i + 1]? = some q → f p = f q

theorem paired_range' {start len : ℕ} {f : ℕ → Testword arch} :
    Paired (List.range' start len) f ↔ PairedTo start len f := by
  constructor
  · intro h i hi
    refine h i _ _ ?_ ?_
    · rw [List.getElem?_range' (by omega), Nat.one_mul]
    · rw [List.getElem?_range' hi, Nat.one_mul, Nat.add_assoc]
  · intro h i p q hp hq
    obtain ⟨hlt, rfl⟩ := List.getElem?_eq_some_iff.mp hq
    obtain ⟨-, rfl⟩ := List.getElem?_eq_some_iff.mp hp
    rw [List.length_range'] at hlt
    simpa only [List.getElem_range', Nat.one_mul, Nat.add_assoc] using h i hlt

theorem Paired.congr {ws : List ℕ} {f g : ℕ → Testword arch} (h : Paired ws f)
    (hfg : ∀ p ∈ ws, g p = f p) : Paired ws g := by
  intro i p q hp hq
  rw [hfg p (List.mem_of_getElem? hp), hfg q (List.mem_of_getElem? hq)]
  exact h i p q hp hq

/-! ### Writing several words -/

/-- The memory after `writeWords`. -/
def overwrite (f : ℕ → Testword arch) : ℕ → List (Testword arch) → ℕ → Testword arch
  | _, [] => f
  | p, value :: values => overwrite (Function.update f p value) (p + 1) values

theorem overwrite_apply (f : ℕ → Testword arch) (p : ℕ) (values : List (Testword arch)) (q : ℕ) :
    overwrite f p values q =
      if p ≤ q ∧ q < p + values.length then values.getD (q - p) 0 else f q := by
  induction values generalizing f p with
  | nil => rw [overwrite, if_neg (by simp only [List.length_nil]; omega)]
  | cons value values ih =>
    rw [overwrite, ih, List.length_cons]
    by_cases hq : q = p
    · rw [hq, if_neg (by omega), if_pos (by omega), Function.update_self, Nat.sub_self]
      rfl
    · rw [Function.update_of_ne hq]
      by_cases hin : p + 1 ≤ q ∧ q < p + 1 + values.length
      · rw [if_pos hin, if_pos (by omega), show q - p = q - (p + 1) + 1 by omega]
        rfl
      · rw [if_neg hin, if_neg (by omega)]

section

variable {A B : (ℕ → Testword arch) → Prop} {R : Exit → TestState arch → Prop}

theorem writeWords_triple {p : ℕ} {values : List (Testword arch)}
    (h : ∀ f, A f → B (overwrite f p values)) :
    Triple (Holding env A) (writeWords p values) (fun _ => Holding env B) R := by
  induction values generalizing A p with
  | nil => exact Triple.pure fun s hs => hs.mono h
  | cons value values ih =>
    refine (Triple.modify (Q := fun _ => Holding env fun f => B (overwrite f (p + 1) values))
      fun s hs => ⟨hs.1.of_log rfl nofun, fun hcpu => ?_⟩).bind fun _ => ih fun f hf => hf
    exact h _ (hs.2 hcpu)

/-- The memory after `rep movs`. -/
def copied (f : ℕ → Testword arch) : (src dst count : ℕ) → ℕ → Testword arch
  | _, _, 0 => f
  | src, dst, count + 1 => copied (Function.update f dst (f src)) (src + 1) (dst + 1) count

/-- A copy to a range that does not overlap with the source. -/
theorem copied_apply (f : ℕ → Testword arch) {src dst count : ℕ}
    (hdisj : src + count ≤ dst ∨ dst + count ≤ src) (q : ℕ) :
    copied f src dst count q =
      if dst ≤ q ∧ q < dst + count then f (src + (q - dst)) else f q := by
  induction count generalizing f src dst with
  | zero => rw [copied, if_neg (by omega)]
  | succ count ih =>
    rw [copied, ih _ (by omega)]
    by_cases hin : dst + 1 ≤ q ∧ q < dst + 1 + count
    · rw [if_pos hin, if_pos (by omega), Function.update_of_ne (by omega),
        show src + 1 + (q - (dst + 1)) = src + (q - dst) by omega]
    · rw [if_neg hin]
      by_cases hq : q = dst
      · rw [hq, Function.update_self, if_pos (by omega), Nat.sub_self, Nat.add_zero]
      · rw [Function.update_of_ne hq, if_neg (by omega)]

theorem repMovs_triple (hmem : ∀ p v, env.readBack p v = v) {src dst count : ℕ}
    (h : ∀ f, A f → B (copied f src dst count)) :
    Triple (Holding env A) (repMovs env src dst count)
      (fun r s => r = src + count ∧ Holding env B s) R := by
  induction count generalizing A src dst with
  | zero => exact Triple.pure fun s hs => ⟨rfl, hs.mono h⟩
  | succ count ih =>
    have hread : Triple (Holding env A) (readWord env src)
        (fun v => Holding env fun f => v = f src ∧ A f) R :=
      (Triple.get (Q := fun s t => s = t ∧ Holding env A t) fun s hs => ⟨rfl, hs⟩).bind fun s =>
        Triple.pure fun t ⟨hst, ht⟩ => ⟨ht.1, fun hcpu => ⟨by rw [hmem, hst], ht.2 hcpu⟩⟩
    refine hread.bind fun v => ?_
    refine (Triple.modify (Q := fun _ => Holding env fun f =>
      B (copied f (src + 1) (dst + 1) count)) fun s hs =>
      ⟨hs.1.of_log rfl nofun, fun hcpu => ?_⟩).bind
      fun _ => (ih fun f hf => hf).post fun r s hr => ⟨by omega, hr.2⟩
    obtain ⟨hv, hA⟩ := hs.2 hcpu
    rw [store_set, hv]
    exact h _ hA

end

/-! ### A move keeps the pairs together -/

/-- A copy of an even number of words from an even offset to an even offset. -/
theorem PairedTo.copied {start len a b c : ℕ} {f : ℕ → Testword arch} (h : PairedTo start len f)
    (hdisj : a + c ≤ b ∨ b + c ≤ a) (hlen : 2 * (a + c) ≤ len) :
    PairedTo start len (copied f (start + 2 * a) (start + 2 * b) (2 * c)) := by
  intro i hi
  rw [copied_apply f (by omega), copied_apply f (by omega)]
  by_cases hin : b ≤ i ∧ i < b + c
  · rw [if_pos (by omega), if_pos (by omega),
      show start + 2 * a + (start + 2 * i - (start + 2 * b)) = start + 2 * (a + (i - b)) by omega,
      show start + 2 * a + (start + 2 * i + 1 - (start + 2 * b)) =
        start + 2 * (a + (i - b)) + 1 by omega]
    exact h (a + (i - b)) (by omega)
  · rw [if_neg (by omega), if_neg (by omega)]
    exact h i hi

/-- The memory after a move. -/
def moved (f : ℕ → Testword arch) (p halfLength : ℕ) : ℕ → Testword arch :=
  copied (copied (copied f p (p + halfLength) halfLength) (p + halfLength) (p + 8) (halfLength - 8))
    (p + halfLength + (halfLength - 8)) p 8

/-- A move changes nothing outside the block. -/
theorem moved_of_notMem {f : ℕ → Testword arch} {p halfLength q : ℕ} (hhalf : 8 ≤ halfLength)
    (hq : ¬ (p ≤ q ∧ q < p + 2 * halfLength)) : moved f p halfLength q = f q := by
  rw [moved, copied_apply _ (by omega), if_neg (by omega), copied_apply _ (by omega),
    if_neg (by omega), copied_apply _ (by omega), if_neg (by omega)]

theorem PairedTo.moved {start len m : ℕ} {f : ℕ → Testword arch} (h : PairedTo start len f)
    (hm : 4 ≤ m) (hlen : 4 * m ≤ len) : PairedTo start len (moved f start (2 * m)) := by
  have h1 := h.copied (a := 0) (b := m) (c := m) (by omega) (by omega)
  have h2 := h1.copied (a := m) (b := 4) (c := m - 4) (by omega) (by omega)
  have h3 := h2.copied (a := 2 * m - 4) (b := 0) (c := 4) (by omega) (by omega)
  rw [Memtest.moved]
  rwa [show start + 2 * 0 = start by omega, show start + 2 * 4 = start + 8 by omega,
    show 2 * (m - 4) = 2 * m - 8 by omega,
    show start + 2 * (2 * m - 4) = start + 2 * m + (2 * m - 8) by omega] at h3

theorem moveBlock_triple (hmem : ∀ p v, env.readBack p v = v)
    {A B : (ℕ → Testword arch) → Prop} {R : Exit → TestState arch → Prop} {p halfLength : ℕ}
    (h : ∀ f, A f → B (moved f p halfLength)) :
    Triple (Holding env A) (moveBlock env p halfLength) (fun _ => Holding env B) R := by
  refine (repMovs_triple hmem (B := fun f => B (copied (copied f (p + halfLength) (p + 8)
    (halfLength - 8)) (p + halfLength + (halfLength - 8)) p 8)) h).bind fun _ => ?_
  refine Triple.of_imp fun _ => ?_
  refine (repMovs_triple hmem (B := fun f => B (copied f (p + halfLength + (halfLength - 8)) p 8))
    fun f hf => hf).bind fun src => Triple.of_imp fun hsrc => ?_
  rw [hsrc]
  exact (repMovs_triple hmem (B := B) fun f hf => hf).bind fun _ => Triple.pure fun s hs => hs.2

/-! ### Walking over a chunk in steps of `n` words -/

/-- If the chunk is a whole number of steps, a step that begins in it also ends in it. -/
theorem room_of_dvd {n start stop q : ℕ} (hlen : n ∣ stop + 1 - start) (hq : n ∣ q - start)
    (hle : start ≤ q) (hstop : q ≤ stop) : q + n ≤ stop + 1 := by
  have hdvd : n ∣ stop + 1 - q := by
    rw [show stop + 1 - q = stop + 1 - start - (q - start) by omega]
    exact Nat.dvd_sub hlen hq
  have := Nat.le_of_dvd (by omega) hdvd
  omega

/-- Before and after the step from `q` the assertions `I q` and `J q` hold. A block begins with the
last step of the one before it. -/
theorem strideBlocks_triple {α : Type} {n : ℕ} {hn : 0 < n} {chunkAlign start stop : ℕ}
    {R : Exit → TestState arch → Prop} {I J : ℕ → TestState arch → Prop}
    {Q : TestState arch → Prop} {body : ℕ → α → TestM arch α} (hstart : start ≤ stop)
    (hlen : n ∣ stop + 1 - start) (hI : ∀ q, Stable env chunkAlign R (I q))
    (hQ : Stable env chunkAlign R Q) (hdummy : env.myCpu < 0 → ∀ q s, I q s → Q s)
    (hbody : 0 ≤ env.myCpu → ∀ q, n ∣ q - start → start ≤ q → q + n ≤ stop + 1 →
      ∀ a, Triple (I q) (body q a) (fun _ => J q) R)
    (hnext : ∀ q s, J q s → I (q + n) s) (hself : ∀ q s, J q s → I q s)
    (hlast : ∀ q s, q + n = stop + 1 → J q s → Q s) (a : α) :
    Triple (I start) (blocksUp env stop (fun pe p => do
      let r ← doWhileBy n hn body p pe a
      pure r.1) start start) (fun _ => Q) R := by
  have hinv : LoopInv env chunkAlign R fun _ p s =>
      (n ∣ p - start ∧ start ≤ p ∧ p + n ≤ stop + 1) ∧ I p s :=
    ⟨fun _ p => (hI p).and_left _, fun _ _ _ _ _ hs => hs⟩
  -- what a block does, whatever its end is
  have hblock : 0 ≤ env.myCpu → ∀ p pe, pe ≤ stop →
      Triple (fun s => (n ∣ p - start ∧ start ≤ p ∧ p + n ≤ stop + 1) ∧ I p s)
        (doWhileBy n hn body p pe a)
        (fun r s => ((n ∣ r.1 - start ∧ start ≤ r.1 ∧ r.1 + n ≤ stop + 1) ∧ pe < r.1 + n) ∧
          J r.1 s) R := by
    intro hcpu p pe hpe
    refine Triple.of_imp fun ⟨hdvd, hle, hroom⟩ => ?_
    have hstep : ∀ q, n ∣ q - p → p ≤ q → q = p ∨ q ≤ pe →
        n ∣ q - start ∧ start ≤ q ∧ q + n ≤ stop + 1 := by
      intro q hq hpq hor
      have hqs : n ∣ q - start := by
        rw [show q - start = q - p + (p - start) by omega]
        exact Nat.dvd_add hq hdvd
      obtain rfl | hqe := hor
      · exact ⟨hqs, hle, hroom⟩
      · exact ⟨hqs, by omega, room_of_dvd hlen hqs (by omega) (by omega)⟩
    refine (Triple.doWhileBy (I := fun q _ => I q) (J := fun q _ => J q) (fun q hq hpq hor a => ?_)
      (fun q _ s => hnext q s) a).post fun r s hr => ⟨⟨hstep r.1 hr.1.1 hr.1.2.1 hr.1.2.2.1,
        hr.1.2.2.2⟩, hr.2⟩
    obtain ⟨h1, h2, h3⟩ := hstep q hq hpq hor
    exact hbody hcpu q h1 h2 h3 a
  have hroom : n ≤ stop + 1 - start := Nat.le_of_dvd (by omega) hlen
  refine Triple.pre (hinv.blocksUp_last (fun _ => hQ) (fun hcpu _ p s hs => hdummy hcpu p s hs.2)
    (fun hcpu pe p hlo hle => ?_) (fun hcpu pe p hlo hhi hlt => ?_) start) fun s hs =>
    ⟨⟨⟨0, by omega⟩, Nat.le_refl _, by omega⟩, hs⟩
  · have hpos := env.spinSize_pos
    exact (hblock hcpu p _ (by omega)).bind fun r => Triple.pure fun s hs =>
      ⟨hs.1.1, hself _ s hs.2⟩
  · exact (hblock hcpu p stop (Nat.le_refl _)).bind fun r => Triple.pure fun s hs =>
      hlast r.1 s (by omega) hs.2

/-- The ends of the blocks of a chunk that ends at `stop`: the last word of each `SPIN_SIZE` words
that lie inside the chunk, and the last word of the chunk itself. -/
def IsBlockEnd (env : TestEnv arch) (start stop pe : ℕ) : Prop :=
  pe = stop ∨ ∃ j, 1 ≤ j ∧ pe + 1 = start + j * env.spinSize ∧ pe < stop

theorem forBlocks_triple {start stop : ℕ} {R : Exit → TestState arch → Prop}
    {P : TestState arch → Prop} {body : ℕ → TestM arch Unit}
    (hbody : ∀ pe, IsBlockEnd env start stop pe → Triple P (body pe) (fun _ => P) R) :
    Triple P (forBlocks env stop body start) (fun _ => P) R := by
  have hpos := env.spinSize_pos
  have hrun : ∀ m pe, stop - pe = m → (∃ j, pe = start + j * env.spinSize) →
      Triple P (forBlocks env stop body pe) (fun _ => P) R := by
    intro m
    induction m using Nat.strongRecOn with
    | _ m ih =>
      intro pe hm ⟨j, hj⟩
      have hsucc : (j + 1) * env.spinSize = j * env.spinSize + env.spinSize := Nat.succ_mul _ _
      rw [forBlocks]
      split
      · refine (hbody _ (.inr ⟨j + 1, by omega, by omega, by omega⟩)).bind fun _ => ?_
        exact ih _ (by omega) _ rfl ⟨j + 1, by omega⟩
      · exact hbody stop (.inl rfl)
  exact hrun _ start rfl ⟨0, by omega⟩

/-! ### The three passes -/

/-- The chunks of some segments come in pairs of equal words, counted from the start of each
chunk. This is all the check at the end looks at, so it does not matter which values the pairs
have, and the fill may be moved about as long as no pair is taken apart. -/
def AllPaired (env : TestEnv arch) (D : VmSegment → Prop) (f : ℕ → Testword arch) : Prop :=
  ∀ seg ∈ env.vmMap, D seg → Paired (env.segmentWords (16 * arch.wordBytes) seg) f

theorem alignOk_sixteen (arch : Arch) : AlignOk arch (16 * arch.wordBytes) := by
  cases arch with
  | b32 => exact ⟨⟨6, by decide, rfl⟩, ⟨16, rfl⟩⟩
  | b64 => exact ⟨⟨7, by decide, rfl⟩, ⟨16, rfl⟩⟩

theorem AllPaired.mono {D D' : VmSegment → Prop} {f : ℕ → Testword arch}
    (h : AllPaired env D f) (hD : ∀ t, D' t → D t) : AllPaired env D' f :=
  fun t ht hDt => h t ht (hD t hDt)

/-- In the pattern, the words come in pairs. -/
theorem movePattern_pairs (pattern1 : Testword arch) {j : ℕ} (hj : j < 8) :
    (movePattern pattern1).getD (2 * j) 0 = (movePattern pattern1).getD (2 * j + 1) 0 := by
  interval_cases j <;> rfl

theorem PairedTo.fill {start q : ℕ} {f : ℕ → Testword arch} (h : PairedTo start (q - start) f)
    (hle : start ≤ q) (hdvd : 16 ∣ q - start) (pattern1 : Testword arch) :
    PairedTo start (q + 16 - start) (overwrite f q (movePattern pattern1)) := by
  intro i hi
  have hlen : (movePattern pattern1).length = 16 := rfl
  rw [overwrite_apply, overwrite_apply, hlen]
  by_cases hin : q ≤ start + 2 * i
  · rw [if_pos (by omega), if_pos (by omega),
      show start + 2 * i + 1 - q = start + 2 * i - q + 1 by omega]
    obtain ⟨j, hj⟩ : ∃ j, start + 2 * i - q = 2 * j := ⟨(start + 2 * i - q) / 2, by omega⟩
    rw [hj]
    exact movePattern_pairs pattern1 (by omega)
  · rw [if_neg (by omega), if_neg (by omega)]
    exact h i (by omega)

section

variable (hsegs : SegmentsOk arch env.vmMap) (hindex : env.cfg.IndexOk env.myCpu)
  {seg : VmSegment} {D : VmSegment → Prop}

include hsegs hindex

/-- What happens to the chunk of one segment does not concern the others. -/
theorem AllPaired.frame {f g : ℕ → Testword arch} (h : AllPaired env D f)
    (hseg : seg ∈ env.vmMap)
    (hfg : ∀ q, q ∉ env.segmentWords (16 * arch.wordBytes) seg → g q = f q) :
    AllPaired env (fun t => D t ∧ t ≠ seg) g := by
  intro t ht ⟨hDt, hne⟩
  refine (h t ht hDt).congr fun q hq => hfg q fun hq' => hne ?_
  exact eq_of_mem_segmentWords hsegs (alignOk_sixteen arch) hindex ht hseg hq hq'

variable (hseg : seg ∈ env.vmMap)
  (hlen : 16 ∣ (env.segmentWords (16 * arch.wordBytes) seg).length)

include hseg hlen

/-- The chunk is skipped and empty, or it is a number of words divisible by 16. -/
theorem moveChunk_cases {c : Chunk}
    (hc : calculateChunk arch env.cfg env.myCpu seg (16 * arch.wordBytes) = some c) :
    (tooShort arch 16 c ∧ env.segmentWords (16 * arch.wordBytes) seg = []) ∨
    (¬ tooShort arch 16 c ∧ c.start / arch.wordBytes + 16 ≤ c.stop / arch.wordBytes + 1 ∧
      16 ∣ c.stop / arch.wordBytes + 1 - c.start / arch.wordBytes ∧
      env.segmentWords (16 * arch.wordBytes) seg = List.range' (c.start / arch.wordBytes)
        (c.stop / arch.wordBytes + 1 - c.start / arch.wordBytes)) := by
  obtain ⟨hshort, hlt⟩ | ⟨hlong, hle, hwords⟩ :=
    calculateChunk_cases hsegs hindex (alignOk_sixteen arch) (n := 16) (by decide) hseg hc
  · exact .inl ⟨hshort, List.eq_nil_of_length_eq_zero (Nat.eq_zero_of_dvd_of_lt hlen hlt)⟩
  · rw [hwords, List.length_range'] at hlen
    exact .inr ⟨hlong, hle, hlen, hwords⟩

/-- The fill pairs the words of a chunk. -/
theorem fillMoveSegment_triple :
    Triple (Holding env (AllPaired env D)) (fillMoveSegment env seg)
      (fun _ => Holding env (AllPaired env fun t => D t ∨ t = seg))
      (fun _ s => s.NoDataError) := by
  refine ((Holding.stable _).chunkOf_triple hseg).bind fun c => Triple.of_imp fun hc => ?_
  obtain ⟨hshort, hnil⟩ | ⟨hlong, hroom, hdvd, hwords⟩ := moveChunk_cases hsegs hindex hseg hlen hc
  · rw [if_pos hshort]
    refine ((Holding.stable (16 * arch.wordBytes)).skipRange_triple 1).post fun _ s hs =>
      hs.mono fun f hf t ht hDt => ?_
    obtain hDt | rfl := hDt
    · exact hf t ht hDt
    · rw [hnil]
      exact fun i p q hp => nomatch hp
  rw [if_neg hlong]
  generalize c.start / arch.wordBytes = start at hroom hdvd hwords ⊢
  generalize c.stop / arch.wordBytes = stop at hroom hdvd hwords ⊢
  let I : ℕ → (ℕ → Testword arch) → Prop := fun q f =>
    AllPaired env (fun t => D t ∧ t ≠ seg) f ∧ PairedTo start (q - start) f
  refine Triple.pre ((strideBlocks_triple (I := fun q => Holding env (I q))
    (J := fun q => Holding env (I (q + 16)))
    (Q := Holding env (AllPaired env fun t => D t ∨ t = seg)) (by omega) hdvd
    (fun _ => Holding.stable (16 * arch.wordBytes)) (Holding.stable _)
    (fun hcpu _ s hs => hs.dummy hcpu)
    (fun hcpu q hq hle hfit pattern1 => ?_) (fun _ _ hs => hs) (fun q s hs => ?_)
    (fun q s hend hs => ?_) _).bind fun _ => Triple.pure fun _ hs => hs) fun s hs => ?_
  · refine (writeWords_triple fun f hf => ?_).bind fun _ => Triple.pure fun _ hs => hs
    refine ⟨(AllPaired.frame hsegs hindex hf.1 hseg fun p hp => ?_).mono fun t ht => ⟨ht, ht.2⟩,
      hf.2.fill hle hq pattern1⟩
    rw [hwords, List.mem_range'_1] at hp
    rw [overwrite_apply, if_neg]
    show ¬ (q ≤ p ∧ p < q + 16)
    omega
  · exact hs.mono fun f hf => ⟨hf.1, fun i hi => hf.2 i (by omega)⟩
  · refine hs.mono fun f hf t ht hDt => ?_
    by_cases hts : t = seg
    · rw [hts, hwords, paired_range', ← hend]
      exact hf.2
    · exact hf.1 t ht ⟨hDt.resolve_right hts, hts⟩
  · refine hs.mono fun f hf => ⟨hf.mono fun t ht => ht.1, fun i hi => ?_⟩
    omega

/-- One iteration of the moves of a block keeps the words of all chunks in pairs. -/
theorem moveIteration_triple (hmem : ∀ p v, env.readBack p v = v) (hspin : 32 ≤ env.spinSize)
    {c : Chunk} (hc : calculateChunk arch env.cfg env.myCpu seg (16 * arch.wordBytes) = some c)
    (hlong : ¬ tooShort arch 16 c)
    (heven : 4 ∣ env.spinSize ∨
      (env.segmentWords (16 * arch.wordBytes) seg).length ≤ env.spinSize) {pe : ℕ}
    (hpe : IsBlockEnd env (c.start / arch.wordBytes) (c.stop / arch.wordBytes) pe) :
    Triple (Holding env (AllPaired env fun _ => True))
      (moveBlock env (c.start / arch.wordBytes) ((pe - c.start / arch.wordBytes + 1) / 2))
      (fun _ => Holding env (AllPaired env fun _ => True)) (fun _ s => s.NoDataError) := by
  obtain ⟨hshort, -⟩ | ⟨-, hroom, hdvd, hwords⟩ := moveChunk_cases hsegs hindex hseg hlen hc
  · exact absurd hshort hlong
  generalize c.start / arch.wordBytes = start at hroom hdvd hwords hpe ⊢
  generalize c.stop / arch.wordBytes = stop at hroom hdvd hwords hpe ⊢
  rw [hwords, List.length_range'] at heven
  -- the length of a block is a multiple of 4
  obtain ⟨m, hm, hm4, hmlen⟩ : ∃ m, pe - start + 1 = 4 * m ∧ 4 ≤ m ∧ 4 * m ≤ stop + 1 - start := by
    obtain rfl | ⟨j, hj, hend, hlt⟩ := hpe
    · exact ⟨(pe - start + 1) / 4, by omega, by omega, by omega⟩
    · have hge : 1 * env.spinSize ≤ j * env.spinSize := Nat.mul_le_mul_right _ hj
      obtain ⟨k, hk⟩ := heven.resolve_right (by omega)
      have hmul : j * env.spinSize = 4 * (j * k) := by rw [hk, Nat.mul_left_comm]
      exact ⟨j * k, by omega, by omega, by omega⟩
  rw [hm, show 4 * m / 2 = 2 * m by omega]
  refine moveBlock_triple hmem fun f hf t ht _ => ?_
  by_cases hts : t = seg
  · rw [hts, hwords, paired_range']
    have hpairs := hf seg hseg trivial
    rw [hwords, paired_range'] at hpairs
    exact hpairs.moved hm4 hmlen
  · refine AllPaired.frame hsegs hindex hf hseg (fun q hq => ?_) t ht ⟨trivial, hts⟩
    rw [hwords, List.mem_range'_1] at hq
    exact moved_of_notMem (by omega) (by omega)

theorem moveSegment_triple (hmem : ∀ p v, env.readBack p v = v) (hspin : 32 ≤ env.spinSize)
    {iterations : ℕ} (heven : iterations = 0 ∨ 4 ∣ env.spinSize ∨
      (env.segmentWords (16 * arch.wordBytes) seg).length ≤ env.spinSize) :
    Triple (Holding env (AllPaired env fun _ => True)) (moveSegment env iterations seg)
      (fun _ => Holding env (AllPaired env fun _ => True)) (fun _ s => s.NoDataError) := by
  refine ((Holding.stable _).chunkOf_triple hseg).bind fun c => Triple.of_imp fun hc => ?_
  refine Triple.ite (fun _ =>
    (Holding.stable (16 * arch.wordBytes)).skipRange_triple iterations) fun hlong =>
    forBlocks_triple fun pe hpe => ?_
  obtain rfl | heven := heven
  · exact Triple.pure fun _ hs => hs
  · exact Triple.foldlM_keep fun _ _ => oneBlock_triple
      (Holding.stable (16 * arch.wordBytes)) (fun _ => Holding.stable _) (fun _ _ hs => hs) fun _ =>
        moveIteration_triple hsegs hindex hseg hlen hmem hspin hc hlong heven hpe

/-- The check finds the words in pairs. -/
theorem checkMoveSegment_triple (hmem : ∀ p v, env.readBack p v = v) :
    Triple (Holding env (AllPaired env fun _ => True)) (checkMoveSegment env seg)
      (fun _ => Holding env (AllPaired env fun _ => True)) (fun _ s => s.NoDataError) := by
  refine ((Holding.stable _).chunkOf_triple hseg).bind fun c => Triple.of_imp fun hc => ?_
  obtain ⟨hshort, -⟩ | ⟨hlong, hroom, hdvd, hwords⟩ := moveChunk_cases hsegs hindex hseg hlen hc
  · rw [if_pos hshort]
    exact (Holding.stable (16 * arch.wordBytes)).skipRange_triple 1
  rw [if_neg hlong]
  generalize c.start / arch.wordBytes = start at hroom hdvd hwords ⊢
  generalize c.stop / arch.wordBytes = stop at hroom hdvd hwords ⊢
  refine (strideBlocks_triple (I := fun _ => Holding env (AllPaired env fun _ => True))
    (J := fun _ => Holding env (AllPaired env fun _ => True)) (by omega)
    (Nat.dvd_trans (by decide) hdvd) (fun _ => Holding.stable (16 * arch.wordBytes))
    (Holding.stable _)
    (fun _ _ _ hs => hs) (fun hcpu q hq hle hfit _ => ?_) (fun _ _ hs => hs) (fun _ _ hs => hs)
    (fun _ _ _ hs => hs) ()).bind fun _ => Triple.pure fun _ hs => hs
  intro s hs
  have hpairs := hs.2 hcpu seg hseg trivial
  rw [hwords, paired_range'] at hpairs
  obtain ⟨i, hi⟩ := hq
  have heq : s.store (q + 0) = s.store (q + 1) := by
    have h := hpairs i (by omega)
    rwa [← hi, Nat.add_sub_cancel' hle] at h
  have hexec : (checkPair env q).exec s =
      (if env.readBack (q + 0) (s.store (q + 0)) ≠ env.readBack (q + 1) (s.store (q + 1)) then
        dataError q (env.readBack (q + 0) (s.store (q + 0)))
          (env.readBack (q + 1) (s.store (q + 1))) false else pure ()).exec s := rfl
  rw [hexec, if_neg (by rw [hmem, hmem, heq]; exact not_not_intro rfl)]
  exact hs

end

/-! ### No false alarms -/

section

variable (hsegs : SegmentsOk arch env.vmMap) (hindex : env.cfg.IndexOk env.myCpu)
  (hlen : ∀ seg ∈ env.vmMap, 16 ∣ (env.segmentWords (16 * arch.wordBytes) seg).length)

include hsegs hindex hlen

/-- After the fill, the words of all chunks come in pairs. -/
theorem fillPass_triple :
    Triple (TestState.NoDataError) (env.vmMap.foldlM (fun _ seg => fillMoveSegment env seg) ())
      (fun _ => Holding env (AllPaired env fun _ => True)) (fun _ s => s.NoDataError) := by
  refine Triple.pre ((Triple.foldlM (I := fun before _ => Holding env (AllPaired env (· ∈ before)))
    (fun before seg after hmap _ => ?_) ()).post fun _ s hs => hs.mono fun f hf t ht _ =>
      hf t ht ht) fun s hs => ⟨hs, fun _ t _ hnil => absurd hnil List.not_mem_nil⟩
  have hseg : seg ∈ env.vmMap := by
    rw [hmap]
    exact List.mem_append_right before List.mem_cons_self
  exact (fillMoveSegment_triple hsegs hindex hseg (hlen seg hseg)).post fun _ s hs =>
    hs.mono fun f hf => hf.mono fun t ht => by simpa using ht

theorem testBlockMove_triple (hmem : ∀ p v, env.readBack p v = v) (hspin : 32 ≤ env.spinSize)
    {iterations : ℕ} (heven : iterations = 0 ∨ 4 ∣ env.spinSize ∨
      ∀ seg ∈ env.vmMap, (env.segmentWords (16 * arch.wordBytes) seg).length ≤ env.spinSize) :
    Triple (TestState.NoDataError) (testBlockMove env iterations)
      (fun _ s => s.NoDataError) (fun _ s => s.NoDataError) := by
  refine (fillPass_triple hsegs hindex hlen).bind fun _ => ?_
  refine Holding.flushCaches_triple.bind fun _ => ?_
  refine (Triple.foldlM_keep fun seg hseg => moveSegment_triple hsegs hindex hseg (hlen seg hseg)
    hmem hspin (heven.imp_right (Or.imp_right fun h => h seg hseg))).bind fun _ => ?_
  refine Holding.flushCaches_triple.bind fun _ => ?_
  exact (Triple.foldlM_keep fun seg hseg => checkMoveSegment_triple hsegs hindex hseg
    (hlen seg hseg) hmem).post fun _ s hs => hs.1

end

/-- **The block move test** reports no error on a memory that works. The fill leaves the words of
all chunks in pairs, and each iteration of the moves keeps them so.

The second and the third part say this of the phases themselves: the fill makes the pairs out of
any memory, and the move of a block keeps those of all chunks, unless the test is bailed out of.
The chunks are whole units of 16 words, as `calculate_chunk` makes them with the alignment this
test passes, and `SPIN_SIZE` is a multiple of 4 unless no block is ever full (`heven`). The loop
that moves a block is that of the x86 builds. -/
theorem testBlockMove_noDataError (hsegs : SegmentsOk arch env.vmMap)
    (hindex : env.cfg.IndexOk env.myCpu)
    (hlen : ∀ seg ∈ env.vmMap, 16 ∣ (env.segmentWords (16 * arch.wordBytes) seg).length)
    (hmem : ∀ p v, env.readBack p v = v) (hspin : 32 ≤ env.spinSize) (iterations : ℕ)
    (heven : iterations = 0 ∨ 4 ∣ env.spinSize ∨
      ∀ seg ∈ env.vmMap, (env.segmentWords (16 * arch.wordBytes) seg).length ≤ env.spinSize)
    (store : ℕ → Testword arch) :
    ((testBlockMove env iterations).exec (.init store)).2.NoDataError ∧
    Triple (TestState.NoDataError) (env.vmMap.foldlM (fun _ seg => fillMoveSegment env seg) ())
      (fun _ => Holding env (AllPaired env fun _ => True)) (fun _ s => s.NoDataError) ∧
    (0 < iterations → ∀ seg ∈ env.vmMap, ∀ c,
      calculateChunk arch env.cfg env.myCpu seg (16 * arch.wordBytes) = some c →
      ¬ tooShort arch 16 c → ∀ pe,
      IsBlockEnd env (c.start / arch.wordBytes) (c.stop / arch.wordBytes) pe →
      Triple (Holding env (AllPaired env fun _ => True))
        (moveBlock env (c.start / arch.wordBytes) ((pe - c.start / arch.wordBytes + 1) / 2))
        (fun _ => Holding env (AllPaired env fun _ => True)) (fun _ s => s.NoDataError)) := by
  refine ⟨?_, fillPass_triple hsegs hindex hlen, fun hiter seg hseg c hc hlong pe hpe => ?_⟩
  · exact (testBlockMove_triple hsegs hindex hlen hmem hspin heven).final
      (fun _ _ _ _ => List.not_mem_nil) (fun _ _ hs => hs) fun _ _ hs => hs
  · exact moveIteration_triple hsegs hindex hseg (hlen seg hseg) hmem hspin hc hlong
      ((heven.resolve_left (by omega)).imp_right fun h => h seg hseg) hpe

/-- A single CPU with one segment of 48 words. -/
def blockMoveEnv (spinSize : ℕ) (hpos : 0 < spinSize) : TestEnv .b64 where
  spinSize := spinSize
  spinSize_pos := hpos
  vmMap := [⟨0x1, 0x1000, 0x1178, 0⟩]
  cfg := ⟨1, false, 1, fun _ => 0, fun _ => 0, fun _ => 0⟩
  myCpu := 0
  readBack := fun _ v => v
  bail := fun _ => false

/-- The theorem at a chunk of 48 words in blocks of 32. -/
theorem testBlockMove_noDataError_twoBlocks :
    ((testBlockMove (blockMoveEnv 32 (by decide)) 3).exec (.init fun _ => 0#64)).2.NoDataError := by
  have hsegs : SegmentsOk .b64 (blockMoveEnv 32 (by decide)).vmMap := by
    refine ⟨?_, List.pairwise_singleton _ _⟩
    simp only [blockMoveEnv, List.mem_singleton, forall_eq]
    exact ⟨by decide, by decide, ⟨0x200, rfl⟩, ⟨0x22f, rfl⟩, by decide⟩
  refine (testBlockMove_noDataError hsegs (.inl rfl) ?_ (fun _ _ => rfl) (Nat.le_refl 32) 3
    (.inr (.inl (by decide))) _).1
  simp only [blockMoveEnv, List.mem_singleton, forall_eq]
  decide

/-- In blocks of 34 words the half length is 17, and the pairs come apart: an error is reported at
address `0x1020`. -/
theorem testBlockMove_not_noDataError :
    ¬ ((testBlockMove (blockMoveEnv 34 (by decide)) 1).exec
      (.init fun _ => 0#64)).2.NoDataError := by
  have hmem : (.dataError 0x204 1#64 (~~~1#64) false : Event .b64) ∈
      ((testBlockMove (blockMoveEnv 34 (by decide)) 1).exec (.init fun _ => 0#64)).2.log := by
    decide +kernel
  exact fun h => h _ _ _ _ hmem

end Memtest
