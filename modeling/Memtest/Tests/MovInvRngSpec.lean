import Memtest.Tests.MovInvRng
import Memtest.Tests.VecPrsgSpec
import Memtest.Tests.MovInvSpec

/-!
# The random vector test raises no false alarms

The lane sequences run through the bodies of all segments, so the block a word belongs to is
counted over the segments below. The value of a word is that of its lane in its block, or the
constant for a stray word. All three passes deal with each word of a chunk once: with the stray
words in a loop of their own, and with the body block by block.
-/

namespace Memtest

open Hoare

variable {arch : Arch} {env : TestEnv arch}

/-! ### Splitting a chunk -/

/-- The body and the edges of a split chunk lie side by side. -/
structure SplitOk (x : Split) : Prop where
  start_le : x.start ≤ x.bstart
  start_le_stop : x.start ≤ x.stop
  dvd_nbody : 4 ∣ x.nbody
  body_le : x.nbody ≠ 0 → x.bstart + x.nbody ≤ x.stop + 1

theorem alignOk_vecBytes (arch : Arch) : AlignOk arch (vecBytes arch) := by
  cases arch with
  | b32 => exact ⟨⟨4, by decide, rfl⟩, ⟨4, rfl⟩⟩
  | b64 => exact ⟨⟨5, by decide, rfl⟩, ⟨4, rfl⟩⟩

theorem le_roundUp {value : ℕ} (hvalue : value + vecBytes arch ≤ 2 ^ arch.bits) :
    value ≤ roundUp arch value (vecBytes arch) := by
  obtain ⟨⟨k, hk, hpow⟩, -⟩ := alignOk_vecBytes arch
  rw [hpow] at hvalue ⊢
  have hpos := Nat.two_pow_pos k
  rw [roundUp, Nat.mod_eq_of_lt (by omega), roundDown_eq (by omega) hk]
  have := Nat.lt_div_mul_add (a := value + (2 ^ k - 1)) hpos
  omega

theorem splitOk_splitChunk {c : Chunk} (hle : ¬ c.stop < c.start)
    (hstart : c.start + vecBytes arch ≤ 2 ^ arch.bits) : SplitOk (splitChunk arch c) := by
  have h1 : c.start / arch.wordBytes ≤ c.stop / arch.wordBytes := Nat.div_le_div_right (by omega)
  have h2 : c.start / arch.wordBytes ≤
      roundUp arch c.start (vecBytes arch) / arch.wordBytes :=
    Nat.div_le_div_right (le_roundUp hstart)
  refine ⟨h2, h1, ?_, ?_⟩
  · dsimp only [splitChunk, vecLanes]
    omega
  · dsimp only [splitChunk, vecLanes]
    split <;> omega

/-- Where the chunk of `my_cpu` begins, rounding up does not wrap. -/
theorem chunk_start_le (hsegs : SegmentsOk arch env.vmMap) (hindex : env.cfg.IndexOk env.myCpu)
    (htop : ∀ seg ∈ env.vmMap, seg.start + vecBytes arch ≤ 2 ^ arch.bits) {seg : VmSegment}
    (hseg : seg ∈ env.vmMap) {c : Chunk}
    (hc : calculateChunk arch env.cfg env.myCpu seg (vecBytes arch) = some c)
    (hle : ¬ c.stop < c.start) : c.start + vecBytes arch ≤ 2 ^ arch.bits := by
  obtain ⟨c', hc', hor⟩ := inSegment_calculateChunk (hsegs.segment seg hseg)
    (alignOk_vecBytes arch) hindex
  obtain rfl := Option.some.inj (hc.symm.trans hc')
  obtain hroom | hroom := (hor.resolve_left hle).room
  · rw [hroom]
    exact htop seg hseg
  · exact hroom.trans (hsegs.segment seg hseg).lt

/-! ### The values of the words -/

/-- The words of the bodies. -/
def TestEnv.bodyWords (env : TestEnv arch) (seg : VmSegment) : List ℕ :=
  match calculateChunk arch env.cfg env.myCpu seg (vecBytes arch) with
  | some c => if c.stop < c.start then []
      else List.range' (splitChunk arch c).bstart (splitChunk arch c).nbody
  | none => []

/-- The number of blocks in some segments. -/
def TestEnv.blocks (env : TestEnv arch) (segs : List VmSegment) : ℕ :=
  (segs.flatMap env.bodyWords).length / 4

/-- The value of a word: that of its lane in its block, or the constant for a stray word. -/
def rngValue (env : TestEnv arch) (f : ℕ → VecState arch) (epat : Testword arch) (p : ℕ) :
    Testword arch :=
  if p ∈ env.vmMap.flatMap env.bodyWords then
    f ((env.vmMap.flatMap env.bodyWords).idxOf p / 4)
      (Fin.ofNat vecLanes ((env.vmMap.flatMap env.bodyWords).idxOf p))
  else epat

/-- A segment whose chunk is not empty. -/
structure SplitAt (env : TestEnv arch) (seg : VmSegment) (x : Split) : Prop where
  ok : SplitOk x
  words : env.segmentWords (vecBytes arch) seg = List.range' x.start (x.stop + 1 - x.start)
  body : env.bodyWords seg = List.range' x.bstart x.nbody

/-- Everything about the segments that the passes rely on. -/
structure RngOk (env : TestEnv arch) : Prop where
  nodup : (env.words (vecBytes arch)).Nodup
  zero : 0 ∉ env.words (vecBytes arch)
  split : ∀ seg ∈ env.vmMap, ∀ c,
    calculateChunk arch env.cfg env.myCpu seg (vecBytes arch) = some c → ¬ c.stop < c.start →
    SplitAt env seg (splitChunk arch c)

theorem rngOk (hsegs : SegmentsOk arch env.vmMap) (hindex : env.cfg.IndexOk env.myCpu)
    (htop : ∀ seg ∈ env.vmMap, seg.start + vecBytes arch ≤ 2 ^ arch.bits) : RngOk env where
  nodup := nodup_words hsegs (alignOk_vecBytes arch) hindex
  zero := zero_notMem_words hsegs (alignOk_vecBytes arch) hindex
  split seg hseg c hc hle :=
    ⟨splitOk_splitChunk hle (chunk_start_le hsegs hindex htop hseg hc hle),
      segmentWords_of_le hc hle, by rw [TestEnv.bodyWords, hc]; exact if_neg hle⟩

section

variable {seg : VmSegment} {before after : List VmSegment} {x : Split}

/-- The body of a segment is a whole number of blocks of its words. -/
theorem RngOk.body_sublist (h : RngOk env) (hseg : seg ∈ env.vmMap) :
    (env.bodyWords seg).Sublist (env.segmentWords (vecBytes arch) seg) ∧
      4 ∣ (env.bodyWords seg).length := by
  cases hc : calculateChunk arch env.cfg env.myCpu seg (vecBytes arch) with
  | none =>
    rw [TestEnv.bodyWords, hc]
    exact ⟨List.nil_sublist _, Nat.dvd_zero 4⟩
  | some c =>
    by_cases hlt : c.stop < c.start
    · rw [TestEnv.bodyWords, hc]
      dsimp only
      rw [if_pos hlt]
      exact ⟨List.nil_sublist _, Nat.dvd_zero 4⟩
    · have hx := h.split seg hseg c hc hlt
      rw [hx.words, hx.body, List.length_range']
      refine ⟨?_, hx.ok.dvd_nbody⟩
      by_cases hzero : (splitChunk arch c).nbody = 0
      · rw [hzero]
        exact List.nil_sublist _
      · have h1 := hx.ok.start_le
        have h2 := hx.ok.body_le hzero
        rw [show (splitChunk arch c).stop + 1 - (splitChunk arch c).start =
            ((splitChunk arch c).bstart - (splitChunk arch c).start) +
              ((splitChunk arch c).nbody + ((splitChunk arch c).stop + 1 -
                ((splitChunk arch c).bstart + (splitChunk arch c).nbody))) by omega,
          ← List.range'_append_1, ← List.range'_append_1,
          Nat.add_sub_cancel' h1]
        exact (List.sublist_append_left _ _).trans (List.sublist_append_right _ _)

theorem RngOk.dvd_length (h : RngOk env) (segs : List VmSegment)
    (hsub : ∀ seg ∈ segs, seg ∈ env.vmMap) : 4 ∣ (segs.flatMap env.bodyWords).length := by
  induction segs with
  | nil => exact Nat.dvd_zero 4
  | cons seg segs ih =>
    rw [List.flatMap_cons, List.length_append]
    exact Nat.dvd_add (h.body_sublist (hsub seg List.mem_cons_self)).2
      (ih fun s hs => hsub s (List.mem_cons_of_mem _ hs))

theorem RngOk.nodup_body (h : RngOk env) : (env.vmMap.flatMap env.bodyWords).Nodup := by
  refine h.nodup.sublist ?_
  rw [TestEnv.words]
  have hall : ∀ segs : List VmSegment, (∀ seg ∈ segs, seg ∈ env.vmMap) →
      (segs.flatMap env.bodyWords).Sublist
        (segs.flatMap (env.segmentWords (vecBytes arch))) := by
    intro segs hsub
    induction segs with
    | nil => exact List.nil_sublist _
    | cons seg segs ih =>
      rw [List.flatMap_cons, List.flatMap_cons]
      exact (h.body_sublist (hsub seg List.mem_cons_self)).1.append
        (ih fun s hs => hsub s (List.mem_cons_of_mem _ hs))
  exact hall _ fun _ hs => hs

theorem blocks_nil : env.blocks [] = 0 := by
  rw [TestEnv.blocks, List.flatMap_nil, List.length_nil]

theorem RngOk.blocks_append (h : RngOk env) (hmap : env.vmMap = before ++ seg :: after) :
    env.blocks (before ++ [seg]) = env.blocks before + (env.bodyWords seg).length / 4 := by
  have h1 := h.dvd_length before fun s hs => by rw [hmap]; simp [hs]
  rw [TestEnv.blocks, TestEnv.blocks, List.flatMap_append, List.length_append,
    List.flatMap_singleton]
  omega

/-- The body of a segment holds the lane states of its blocks, counted over all segments. -/
theorem RngOk.laneValues (h : RngOk env) (hmap : env.vmMap = before ++ seg :: after)
    (hbody : env.bodyWords seg = List.range' x.bstart x.nbody) (f : ℕ → VecState arch)
    (epat : Testword arch) :
    LaneValues (rngValue env f epat) f (env.blocks before) x.bstart (x.nbody / 4) := by
  intro i hi l
  have hl : (l : ℕ) < 4 := l.isLt
  obtain ⟨m, hm⟩ := h.dvd_length before fun s hs => by rw [hmap]; simp [hs]
  have hget : (env.vmMap.flatMap env.bodyWords)[4 * m + (i * 4 + l)]? =
      some (x.bstart + i * 4 + l) := by
    rw [hmap, List.flatMap_append, List.flatMap_cons, hbody,
      List.getElem?_append_right (by omega), hm, Nat.add_sub_cancel_left,
      List.getElem?_append_left (by rw [List.length_range']; omega),
      List.getElem?_range' (by omega), Nat.one_mul, Nat.add_assoc]
  obtain ⟨hlt, hval⟩ := List.getElem?_eq_some_iff.mp hget
  have hidx : (env.vmMap.flatMap env.bodyWords).idxOf (x.bstart + i * 4 + l) =
      4 * m + (i * 4 + l) := by
    rw [← hval, h.nodup_body.idxOf_getElem]
  rw [rngValue, if_pos (List.mem_of_getElem? hget), hidx, TestEnv.blocks, hm,
    Nat.mul_div_cancel_left m (by decide), show (4 * m + (i * 4 + l)) / 4 = m + i by omega]
  congr 1
  refine Fin.ext ?_
  change (4 * m + (i * 4 + (l : ℕ))) % 4 = l
  omega

/-- The stray words of a segment hold the constant. -/
theorem RngOk.edgeValue (h : RngOk env) (hmap : env.vmMap = before ++ seg :: after)
    (hx : SplitAt env seg x) (f : ℕ → VecState arch) (epat : Testword arch) {q : ℕ}
    (hlo : x.start ≤ q) (hhi : q ≤ x.stop) (hedge : ¬ (x.bstart ≤ q ∧ q < x.bstart + x.nbody)) :
    rngValue env f epat q = epat := by
  rw [rngValue, if_neg]
  intro hmem
  have hq : q ∈ env.segmentWords (vecBytes arch) seg := by
    rw [hx.words, List.mem_range'_1]
    omega
  have hnodup := h.nodup
  rw [TestEnv.words, hmap, List.flatMap_append, List.flatMap_cons, List.nodup_append] at hnodup
  obtain ⟨-, hrest, hbefore⟩ := hnodup
  rw [List.nodup_append] at hrest
  have hsub : ∀ s, s ∈ env.vmMap → ∀ q ∈ env.bodyWords s, q ∈ env.segmentWords (vecBytes arch) s :=
    fun s hs q hq => (h.body_sublist hs).1.subset hq
  rw [hmap, List.flatMap_append, List.flatMap_cons, List.mem_append, List.mem_append] at hmem
  obtain hmem | hmem | hmem := hmem
  · obtain ⟨s, hs, hqs⟩ := List.mem_flatMap.mp hmem
    exact hbefore q (List.mem_flatMap.mpr ⟨s, hs, hsub s (by rw [hmap]; simp [hs]) q hqs⟩) q
      (List.mem_append_left _ hq) rfl
  · rw [hx.body, List.mem_range'_1] at hmem
    exact hedge hmem
  · obtain ⟨s, hs, hqs⟩ := List.mem_flatMap.mp hmem
    exact hrest.2.2 q hq q
      (List.mem_flatMap.mpr ⟨s, hs, hsub s (by rw [hmap]; simp [hs]) q hqs⟩) rfl

end

/-! ### One segment -/

section

variable {new old val : ℕ → Testword arch} {f : ℕ → VecState arch} {epat : Testword arch}
  {todo done : ℕ → Prop} {edge : ℕ → TestM arch Unit}
  {kernel : (nblocks : ℕ) → VecState arch → ℕ → TestM arch (VecState arch)} {x : Split} {m : ℕ}

theorem forWords_triple {I : ℕ → TestState arch → Prop} {R : Exit → TestState arch → Prop}
    {first limit : ℕ} {body : ℕ → TestM arch Unit}
    (hbody : ∀ q, first ≤ q → q < limit → Triple (I q) (body q) (fun _ => I (q + 1)) R) :
    Triple (I first) (forWords first limit body) (fun _ => I (max first limit)) R := by
  have h := Triple.foldlM (l := List.range' first (limit - first)) (R := R)
    (f := fun (_ : Unit) q => body q) (I := fun before _ => I (first + before.length))
    (fun before q after hl _ => ?_) ()
  · rw [List.length_range', show first + (limit - first) = max first limit by omega] at h
    exact h
  · have hlen := congrArg List.length hl
    simp only [List.length_range', List.length_append, List.length_cons] at hlen
    have hget := congrArg (fun l => l[before.length]?) hl
    rw [List.getElem?_range' (by omega)] at hget
    have hq : q = first + before.length := by simpa using hget.symm
    rw [List.length_append, List.length_singleton, ← Nat.add_assoc, ← hq]
    exact hbody q (by omega) (by omega)

/-- What the loops over the stray words do to one word. -/
def EdgeSpec (env : TestEnv arch) (new old val : ℕ → Testword arch) (epat : Testword arch)
    (edge : ℕ → TestM arch Unit) : Prop :=
  ∀ todo done a q, 0 ≤ env.myCpu → a ≤ q → todo q → val q = epat →
    Triple (Handled env new old todo done a q) (edge q)
      (fun _ => Handled env new old todo done a (q + 1)) (SoundExit env (vecBytes arch))

/-- What the kernel of an upward pass does to the blocks it is given. -/
def KernelUp (env : TestEnv arch) (new old val : ℕ → Testword arch) (f : ℕ → VecState arch)
    (kernel : (nblocks : ℕ) → VecState arch → ℕ → TestM arch (VecState arch)) : Prop :=
  ∀ todo done a p m n, 0 ≤ env.myCpu → 0 < n → a ≤ p → LaneValues val f m p n →
    (∀ q, p ≤ q → q < p + n * 4 → todo q) →
    Triple (Handled env new old todo done a p) (kernel n (f m) p)
      (fun st s => st = f (m + n) ∧ Handled env new old todo done a (p + n * 4) s)
      (SoundExit env (vecBytes arch))

/-- What the kernel of the downward pass does to the blocks it is given. -/
def KernelDown (env : TestEnv arch) (new old val : ℕ → Testword arch) (f : ℕ → VecState arch)
    (kernel : (nblocks : ℕ) → VecState arch → ℕ → TestM arch (VecState arch)) : Prop :=
  ∀ todo done c p m n, 0 ≤ env.myCpu → p + n * 4 ≤ c → LaneValues val f m p n →
    (∀ q, p ≤ q → q < p + n * 4 → todo q) →
    Triple (Handled env new old todo done (p + n * 4) c) (kernel n (f (m + n)) p)
      (fun st s => st = f m ∧ Handled env new old todo done p c s)
      (SoundExit env (vecBytes arch))

theorem lowerEdge_triple (hedge : EdgeSpec env new old val epat edge) (hcpu : 0 ≤ env.myCpu)
    (hx : SplitOk x) (htodo : ∀ q, x.start ≤ q → q < min x.bstart (x.stop + 1) → todo q)
    (hval : ∀ q, x.start ≤ q → q < min x.bstart (x.stop + 1) → val q = epat) :
    Triple (Holds env new old todo done) (lowerEdge x edge)
      (fun _ => Handled env new old todo done x.start (min x.bstart (x.stop + 1)))
      (SoundExit env (vecBytes arch)) := by
  have hle : x.start ≤ min x.bstart (x.stop + 1) := by
    have := hx.start_le
    have := hx.start_le_stop
    omega
  have h := forWords_triple (I := fun b => Handled env new old todo done x.start b)
    fun q h1 h2 => hedge todo done x.start q hcpu h1 (htodo q h1 h2) (hval q h1 h2)
  rw [max_eq_right hle] at h
  exact h.pre fun s hs => handled_self.mpr hs

theorem upperEdge_triple (hedge : EdgeSpec env new old val epat edge) (hcpu : 0 ≤ env.myCpu)
    (htodo : ∀ q, x.bstart + x.nbody ≤ q → q < x.stop + 1 → todo q)
    (hval : ∀ q, x.bstart + x.nbody ≤ q → q < x.stop + 1 → val q = epat) :
    Triple (Holds env new old todo done) (upperEdge x edge)
      (fun _ => Handled env new old todo done (x.bstart + x.nbody)
        (max (x.bstart + x.nbody) (x.stop + 1))) (SoundExit env (vecBytes arch)) :=
  (forWords_triple (I := fun b => Handled env new old todo done (x.bstart + x.nbody) b)
    fun q h1 h2 => hedge todo done _ q hcpu h1 (htodo q h1 h2) (hval q h1 h2)).pre
    fun _ hs => handled_self.mpr hs

theorem loopInv_holds {β : Type} (c : ℕ → β → Prop) (todo done : ℕ → ℕ → Prop) :
    LoopInv env (vecBytes arch) (SoundExit env (vecBytes arch)) fun k b s =>
      (0 ≤ env.myCpu → c k b) ∧ Holds env new old (todo k) (done k) s :=
  ⟨fun _ _ => Holds.stable.and_left _,
    fun hcpu _ _ _ _ h => ⟨fun h0 => absurd h0 (by omega), h.2.dummy hcpu⟩⟩

/-- The blocks of the body in an upward pass. -/
theorem bodyUp_triple (hkernel : KernelUp env new old val f kernel) (hspin : 4 ∣ env.spinSize)
    (hx : SplitOk x) (hpos : x.nbody ≠ 0) (hval : LaneValues val f m x.bstart (x.nbody / 4))
    (htodo : ∀ q, x.bstart ≤ q → q < x.bstart + x.nbody → todo q) {st : VecState arch} :
    Triple (fun s => (0 ≤ env.myCpu → st = f m) ∧ Holds env new old todo done s)
      (blocksUp env (x.bstart + (x.nbody - 1)) (vecBlockUp kernel) x.bstart (x.bstart, st))
      (fun r s => (0 ≤ env.myCpu → r.2 = f (m + x.nbody / 4)) ∧
        Handled env new old todo done x.bstart (x.bstart + x.nbody) s)
      (SoundExit env (vecBytes arch)) := by
  have hdvd := hx.dvd_nbody
  have hinv : LoopInv env (vecBytes arch) (SoundExit env (vecBytes arch))
      fun k (r : ℕ × VecState arch) s => (0 ≤ env.myCpu →
        r.1 = k ∧ 4 ∣ k - x.bstart ∧ r.2 = f (m + (k - x.bstart) / 4)) ∧
        Handled env new old todo done x.bstart k s :=
    loopInv_holds _ _ _
  refine Triple.pre ((hinv.blocksUp (fun hcpu pe pe' r hlo hhi hpe => ?_) (x.bstart, st)).post
    fun r s hs => ?_) fun s hs => ⟨fun hcpu => ⟨rfl, ?_, ?_⟩, handled_self.mpr hs.2⟩
  · refine Triple.of_pre (fun s hs => hs.1 hcpu) fun ⟨hp, hk, hst⟩ => ?_
    -- a block is a whole number of vector blocks
    have hspos := env.spinSize_pos
    have hn : 4 ∣ pe' + 1 - pe := by omega
    obtain ⟨n, hn⟩ := hn
    have hblock := hkernel todo done x.bstart pe (m + (pe - x.bstart) / 4) n hcpu (by omega) hlo
      (fun i hi l => by
        have := hval ((pe - x.bstart) / 4 + i) (by omega) l
        rwa [show x.bstart + ((pe - x.bstart) / 4 + i) * 4 + (l : ℕ) = pe + i * 4 + l by omega,
          ← Nat.add_assoc] at this)
      fun q h1 h2 => htodo q (by omega) (by omega)
    rw [show pe + n * 4 = pe' + 1 by omega] at hblock
    have hexec : vecBlockUp kernel pe' r =
        kernel n (f (m + (pe - x.bstart) / 4)) pe >>= fun st => pure (pe' + 1, st) := by
      rw [vecBlockUp, hp, hst, hn, vecLanes, Nat.mul_div_cancel_left n (by decide)]
    rw [hexec]
    refine (hblock.pre fun s hs => hs.2).bind fun st' => Triple.pure fun s hs =>
      ⟨fun _ => ⟨rfl, by omega, ?_⟩, hs.2⟩
    exact hs.1.trans (congrArg f (by omega))
  · rw [show x.bstart + (x.nbody - 1) + 1 = x.bstart + x.nbody by omega,
      Nat.add_sub_cancel_left] at hs
    exact ⟨fun hcpu => (hs.1 hcpu).2.2, hs.2⟩
  · rw [Nat.sub_self]
    exact Nat.dvd_zero 4
  · rw [Nat.sub_self, Nat.zero_div, Nat.add_zero]
    exact hs.1 hcpu

/-- The blocks of the body in the downward pass. -/
theorem bodyDown_triple (hkernel : KernelDown env new old val f kernel) (hspin : 4 ∣ env.spinSize)
    (hx : SplitOk x) (hzero : 0 < x.bstart) (hpos : x.nbody ≠ 0)
    (hval : LaneValues val f m x.bstart (x.nbody / 4))
    (htodo : ∀ q, x.bstart ≤ q → q < x.bstart + x.nbody → todo q) {st : VecState arch} :
    Triple (fun s => (0 ≤ env.myCpu → st = f (m + x.nbody / 4)) ∧ Holds env new old todo done s)
      (blocksDown env x.bstart (vecBlockDown kernel) (x.bstart + (x.nbody - 1))
        (x.bstart + (x.nbody - 1), st))
      (fun r s => (0 ≤ env.myCpu → r.2 = f m) ∧
        Handled env new old todo done x.bstart (x.bstart + x.nbody) s)
      (SoundExit env (vecBytes arch)) := by
  have hdvd := hx.dvd_nbody
  have hinv : LoopInv env (vecBytes arch) (SoundExit env (vecBytes arch))
      fun k (r : ℕ × VecState arch) s => (0 ≤ env.myCpu →
        r.1 + 1 = k ∧ 4 ∣ k - x.bstart ∧ r.2 = f (m + (k - x.bstart) / 4)) ∧
        Handled env new old todo done k (x.bstart + x.nbody) s :=
    loopInv_holds _ _ _
  have hend : x.bstart + (x.nbody - 1) + 1 = x.bstart + x.nbody := by omega
  refine Triple.pre ((hinv.blocksDown hzero (Nat.le_add_right _ _)
    (fun hcpu ps ps' r hhi hle hps => ?_) (x.bstart + (x.nbody - 1), st)).post
    fun r s hs => ?_) fun s hs => ⟨fun hcpu => ⟨rfl, ?_, ?_⟩, ?_⟩
  · refine Triple.of_pre (fun s hs => hs.1 hcpu) fun ⟨hp, hk, hst⟩ => ?_
    have hspos := env.spinSize_pos
    have hlo : x.bstart ≤ ps' := by omega
    have hn : 4 ∣ ps + 1 - ps' := by omega
    obtain ⟨n, hn⟩ := hn
    have hblock := hkernel todo done (x.bstart + x.nbody) ps' (m + (ps' - x.bstart) / 4) n hcpu
      (by omega) (fun i hi l => by
        have := hval ((ps' - x.bstart) / 4 + i) (by omega) l
        rwa [show x.bstart + ((ps' - x.bstart) / 4 + i) * 4 + (l : ℕ) = ps' + i * 4 + l by omega,
          ← Nat.add_assoc] at this)
      fun q h1 h2 => htodo q (by omega) (by omega)
    rw [show ps' + n * 4 = ps + 1 by omega,
      show m + (ps' - x.bstart) / 4 + n = m + (ps + 1 - x.bstart) / 4 by omega] at hblock
    have hexec : vecBlockDown kernel ps' r =
        kernel n (f (m + (ps + 1 - x.bstart) / 4)) ps' >>= fun st => pure (ps' - 1, st) := by
      rw [vecBlockDown, hst, show r.1 + 1 - ps' = 4 * n by omega, vecLanes,
        Nat.mul_div_cancel_left n (by decide)]
    rw [hexec]
    exact (hblock.pre fun s hs => hs.2).bind fun st' => Triple.pure fun s hs =>
      ⟨fun _ => ⟨by omega, by omega, hs.1⟩, hs.2⟩
  · rw [Nat.sub_self, Nat.zero_div, Nat.add_zero] at hs
    exact ⟨fun hcpu => (hs.1 hcpu).2.2, hs.2⟩
  · rw [hend, Nat.add_sub_cancel_left]
    exact hdvd
  · rw [hend, Nat.add_sub_cancel_left]
    exact hs.1 hcpu
  · rw [hend]
    exact handled_self.mpr hs.2

/-- The words of a chunk are its lower edge, its body and its upper edge. -/
theorem cover_split {q : ℕ} (hlo : x.start ≤ q) (hhi : q < x.stop + 1) :
    x.start ≤ q ∧ q < min x.bstart (x.stop + 1) ∨ x.bstart ≤ q ∧ q < x.bstart + x.nbody ∨
      x.bstart + x.nbody ≤ q ∧ q < max (x.bstart + x.nbody) (x.stop + 1) := by
  omega

variable {seg : VmSegment} {before after : List VmSegment}

/-- One segment of an upward pass. -/
theorem rngSegmentUp_triple (hok : RngOk env) (hspin : 4 ∣ env.spinSize)
    (hmap : env.vmMap = before ++ seg :: after)
    (hedge : EdgeSpec env new old (rngValue env f epat) epat edge)
    (hkernel : KernelUp env new old (rngValue env f epat) f kernel)
    (htodo : ∀ q ∈ env.segmentWords (vecBytes arch) seg, todo q) {st : VecState arch} :
    Triple (fun s => (0 ≤ env.myCpu → st = f (env.blocks before)) ∧ Holds env new old todo done s)
      (rngSegmentUp env edge kernel st seg)
      (fun st s => (0 ≤ env.myCpu → st = f (env.blocks (before ++ [seg]))) ∧
        Holds env new old (fun q => todo q ∧ q ∉ env.segmentWords (vecBytes arch) seg)
          (fun q => done q ∨ q ∈ env.segmentWords (vecBytes arch) seg) s)
      (SoundExit env (vecBytes arch)) := by
  have hseg : seg ∈ env.vmMap := by rw [hmap]; simp
  refine Triple.of_imp fun hst => ?_
  refine (Holds.stable.chunkOf_triple hseg).bind fun c => Triple.of_imp fun hc => ?_
  rw [hok.blocks_append hmap]
  refine Triple.ite (fun hlt => ?_) fun hle => ?_
  · have hbody : env.bodyWords seg = [] := by
      rw [TestEnv.bodyWords, hc]
      exact if_pos hlt
    rw [segmentWords_of_lt hc hlt, hbody]
    exact (Holds.stable.skipRange_triple 1).bind fun _ => Triple.pure fun s hs =>
      ⟨hst, hs.mono (fun q hq => hq.1) fun q hq => hq.resolve_right List.not_mem_nil⟩
  · have hx := hok.split seg hseg c hc hle
    dsimp only
    generalize splitChunk arch c = x at hx ⊢
    have hmem : ∀ q, q ∈ env.segmentWords (vecBytes arch) seg ↔ x.start ≤ q ∧ q < x.stop + 1 := by
      intro q
      rw [hx.words, List.mem_range'_1]
      omega
    have hspl := hx.ok
    have hstart := hspl.start_le
    have hstop := hspl.start_le_stop
    have hend := hspl.body_le
    have hval : ∀ q, x.start ≤ q → q < x.stop + 1 →
        ¬ (x.bstart ≤ q ∧ q < x.bstart + x.nbody) → rngValue env f epat q = epat :=
      fun q h1 h2 h3 => hok.edgeValue hmap hx f epat h1 (by omega) h3
    rw [hx.body, List.length_range']
    -- the stray words
    refine Triple.bind (Q := fun _ => Holds env new old
      (fun q => (todo q ∧ ¬ (x.start ≤ q ∧ q < min x.bstart (x.stop + 1))) ∧
        ¬ (x.bstart + x.nbody ≤ q ∧ q < max (x.bstart + x.nbody) (x.stop + 1)))
      (fun q => (done q ∨ x.start ≤ q ∧ q < min x.bstart (x.stop + 1)) ∨
        x.bstart + x.nbody ≤ q ∧ q < max (x.bstart + x.nbody) (x.stop + 1))) ?_ fun _ => ?_
    · refine Triple.ite (fun hcpu => ?_) fun hcpu => Triple.pure fun s hs => hs.dummy (by omega)
      refine (lowerEdge_triple hedge hcpu hspl (fun q h1 h2 => htodo q ((hmem q).mpr (by omega)))
        fun q h1 h2 => hval q h1 (by omega) (by omega)).bind fun _ => ?_
      exact upperEdge_triple hedge hcpu
        (fun q h1 h2 => ⟨htodo q ((hmem q).mpr (by omega)), by omega⟩)
        fun q h1 h2 => hval q (by omega) h2 (by omega)
    · refine Triple.ite (fun hzero => ?_) fun hpos => ?_
      · refine (Holds.stable.skipRange_triple 1).bind fun _ => Triple.pure fun s hs =>
          ⟨fun hcpu => by rw [hst hcpu, hzero, Nat.zero_div, Nat.add_zero],
            hs.mono (fun q hq => ?_) fun q hq => ?_⟩
        · rw [hmem] at hq
          exact ⟨⟨hq.1, by omega⟩, by omega⟩
        · rw [hmem] at hq
          obtain hq | hq := hq
          · exact .inl (.inl hq)
          · obtain h | h | h := cover_split hq.1 hq.2
            · exact .inl (.inr h)
            · omega
            · exact .inr h
      · refine ((bodyUp_triple hkernel hspin hspl hpos (hok.laneValues hmap hx.body f epat)
          fun q h1 h2 => ⟨⟨htodo q ((hmem q).mpr (by omega)), by omega⟩, by omega⟩).pre
          fun s hs => ⟨hst, hs⟩).bind fun r => Triple.pure fun s hs =>
            ⟨hs.1, hs.2.mono (fun q hq => ?_) fun q hq => ?_⟩
        · rw [hmem] at hq
          exact ⟨⟨⟨hq.1, by omega⟩, by omega⟩, by omega⟩
        · rw [hmem] at hq
          obtain hq | hq := hq
          · exact .inl (.inl (.inl hq))
          · obtain h | h | h := cover_split hq.1 hq.2
            · exact .inl (.inl (.inr h))
            · exact .inr h
            · exact .inl (.inr h)

/-- One segment of the downward pass. -/
theorem rngSegmentDown_triple (hok : RngOk env) (hspin : 4 ∣ env.spinSize)
    (hmap : env.vmMap = before ++ seg :: after)
    (hedge : EdgeSpec env new old (rngValue env f epat) epat edge)
    (hkernel : KernelDown env new old (rngValue env f epat) f kernel)
    (htodo : ∀ q ∈ env.segmentWords (vecBytes arch) seg, todo q) {st : VecState arch} :
    Triple (fun s => (0 ≤ env.myCpu → st = f (env.blocks (before ++ [seg]))) ∧
        Holds env new old todo done s)
      (rngSegmentDown env edge kernel st seg)
      (fun st s => (0 ≤ env.myCpu → st = f (env.blocks before)) ∧
        Holds env new old (fun q => todo q ∧ q ∉ env.segmentWords (vecBytes arch) seg) done s)
      (SoundExit env (vecBytes arch)) := by
  have hseg : seg ∈ env.vmMap := by rw [hmap]; simp
  refine Triple.of_imp fun hst => ?_
  refine (Holds.stable.chunkOf_triple hseg).bind fun c => Triple.of_imp fun hc => ?_
  rw [hok.blocks_append hmap] at hst
  refine Triple.ite (fun hlt => ?_) fun hle => ?_
  · have hbody : env.bodyWords seg = [] := by
      rw [TestEnv.bodyWords, hc]
      exact if_pos hlt
    rw [hbody] at hst
    exact (Holds.stable.skipRange_triple 1).bind fun _ => Triple.pure fun s hs =>
      ⟨hst, hs.mono (fun q hq => hq.1) fun q hq => hq⟩
  · have hx := hok.split seg hseg c hc hle
    dsimp only
    generalize splitChunk arch c = x at hx ⊢
    have hmem : ∀ q, q ∈ env.segmentWords (vecBytes arch) seg ↔ x.start ≤ q ∧ q < x.stop + 1 := by
      intro q
      rw [hx.words, List.mem_range'_1]
      omega
    have hspl := hx.ok
    have hstart := hspl.start_le
    have hstop := hspl.start_le_stop
    have hend := hspl.body_le
    have hval : ∀ q, x.start ≤ q → q < x.stop + 1 →
        ¬ (x.bstart ≤ q ∧ q < x.bstart + x.nbody) → rngValue env f epat q = epat :=
      fun q h1 h2 h3 => hok.edgeValue hmap hx f epat h1 (by omega) h3
    rw [hx.body, List.length_range'] at hst
    -- the stray words above the body
    refine Triple.bind (Q := fun _ => Holds env new old
      (fun q => todo q ∧ ¬ (x.bstart + x.nbody ≤ q ∧ q < max (x.bstart + x.nbody) (x.stop + 1)))
      done) ?_ fun _ => ?_
    · refine Triple.ite (fun hcpu => ?_) fun hcpu => Triple.pure fun s hs => hs.dummy (by omega)
      exact (upperEdge_triple hedge hcpu (fun q h1 h2 => htodo q ((hmem q).mpr (by omega)))
        fun q h1 h2 => hval q (by omega) h2 (by omega)).post
        fun _ s hs => hs.mono (fun q hq => hq) fun q hq => .inl hq
    -- the stray words below the body, once the body has been dealt with
    have hlower : Triple (Holds env new old
        (fun q => (todo q ∧ ¬ (x.bstart + x.nbody ≤ q ∧
          q < max (x.bstart + x.nbody) (x.stop + 1))) ∧
          ¬ (x.bstart ≤ q ∧ q < x.bstart + x.nbody)) done)
        (unlessDummy env (lowerEdge x edge))
        (fun _ => Holds env new old
          (fun q => todo q ∧ q ∉ env.segmentWords (vecBytes arch) seg) done)
        (SoundExit env (vecBytes arch)) := by
      refine Triple.ite (fun hcpu => ?_) fun hcpu => Triple.pure fun s hs => hs.dummy (by omega)
      refine (lowerEdge_triple hedge hcpu hspl
        (fun q h1 h2 => ⟨⟨htodo q ((hmem q).mpr (by omega)), by omega⟩, by omega⟩)
        fun q h1 h2 => hval q h1 (by omega) (by omega)).post
        fun _ s hs => hs.mono (fun q hq => ?_) fun q hq => .inl hq
      rw [hmem] at hq
      exact ⟨⟨⟨hq.1, by omega⟩, by omega⟩, by omega⟩
    refine Triple.ite (fun hzero => ?_) fun hpos => ?_
    · refine (hlower.pre fun s hs => hs.mono (fun q hq => hq.1) fun q hq => hq).bind fun _ => ?_
      exact (Holds.stable.skipRange_triple 1).bind fun _ => Triple.pure fun s hs =>
        ⟨fun hcpu => by rw [hst hcpu, hzero, Nat.zero_div, Nat.add_zero], hs⟩
    · have hbpos : 0 < x.bstart := by
        refine Nat.pos_of_ne_zero fun h0 => hok.zero (segmentWords_subset hseg ?_)
        rw [hmem]
        omega
      refine ((bodyDown_triple hkernel hspin hspl hbpos hpos
        (hok.laneValues hmap hx.body f epat)
        fun q h1 h2 => ⟨htodo q ((hmem q).mpr (by omega)), by omega⟩).pre
        fun s hs => ⟨hst, hs⟩).bind fun r => Triple.of_imp fun hr => ?_
      exact (hlower.pre fun s hs => hs.mono (fun q hq => hq) fun q hq => .inl hq).bind fun _ =>
        Triple.pure fun s hs => ⟨hr, hs⟩

end

/-! ### The passes -/

section

variable {new old : ℕ → Testword arch} {f : ℕ → VecState arch} {epat : Testword arch}
  {edge : ℕ → TestM arch Unit}
  {kernel : (nblocks : ℕ) → VecState arch → ℕ → TestM arch (VecState arch)}

/-- The words of some segments. -/
def TestEnv.wordsOf (env : TestEnv arch) (segs : List VmSegment) (q : ℕ) : Prop :=
  q ∈ segs.flatMap (env.segmentWords (vecBytes arch))

theorem wordsOf_append {before : List VmSegment} {seg : VmSegment} {q : ℕ} :
    env.wordsOf (before ++ [seg]) q ↔
      env.wordsOf before q ∨ q ∈ env.segmentWords (vecBytes arch) seg := by
  rw [TestEnv.wordsOf, List.flatMap_append, List.flatMap_singleton, List.mem_append]
  rfl

/-- A segment has no words in common with those before it. -/
theorem RngOk.notMem_before (h : RngOk env) {before after : List VmSegment} {seg : VmSegment}
    (hmap : env.vmMap = before ++ seg :: after) {q : ℕ}
    (hq : q ∈ env.segmentWords (vecBytes arch) seg) : ¬ env.wordsOf before q := by
  intro hbefore
  have hnodup := h.nodup
  rw [TestEnv.words, hmap, List.flatMap_append, List.flatMap_cons, List.nodup_append] at hnodup
  exact hnodup.2.2 q hbefore q (List.mem_append_left _ hq) rfl

variable (new old) in
/-- **An upward pass** gives all words their new values and leaves the lane states behind the last
block. -/
theorem passUp_triple (hok : RngOk env) (hspin : 4 ∣ env.spinSize)
    (hedge : EdgeSpec env new old (rngValue env f epat) epat edge)
    (hkernel : KernelUp env new old (rngValue env f epat) f kernel) :
    Triple (Holds env new old (env.wordsOf env.vmMap) fun _ => False)
      (env.vmMap.foldlM (rngSegmentUp env edge kernel) (f 0))
      (fun st s => (0 ≤ env.myCpu → st = f (env.blocks env.vmMap)) ∧
        Holds env new old (fun _ => False) (env.wordsOf env.vmMap) s)
      (SoundExit env (vecBytes arch)) := by
  refine Triple.pre ((Triple.foldlM (I := fun before st s =>
    (0 ≤ env.myCpu → st = f (env.blocks before)) ∧
      Holds env new old (fun q => env.wordsOf env.vmMap q ∧ ¬ env.wordsOf before q)
        (env.wordsOf before) s) (fun before seg after hmap st => ?_) (f 0)).post
    fun st s hs => ⟨hs.1, hs.2.mono (fun _ => False.elim) fun q hq => hq⟩)
    fun s hs => ⟨fun _ => by rw [blocks_nil], hs.mono (fun q hq => hq.1)
      fun q hq => absurd hq List.not_mem_nil⟩
  have hall : ∀ q ∈ env.segmentWords (vecBytes arch) seg, env.wordsOf env.vmMap q :=
    fun q hq => segmentWords_subset (by rw [hmap]; simp) hq
  refine (rngSegmentUp_triple hok hspin hmap hedge hkernel fun q hq =>
    ⟨hall q hq, hok.notMem_before hmap hq⟩).post fun st s hs => ⟨hs.1, hs.2.mono ?_ ?_⟩
  · rintro q ⟨hall, hnot⟩
    rw [wordsOf_append, not_or] at hnot
    exact ⟨⟨hall, hnot.1⟩, hnot.2⟩
  · exact fun q hq => wordsOf_append.mp hq

variable (new old) in
/-- **The downward pass**, from the lane states the upward pass has left. -/
theorem passDown_triple (hok : RngOk env) (hspin : 4 ∣ env.spinSize)
    (hedge : EdgeSpec env new old (rngValue env f epat) epat edge)
    (hkernel : KernelDown env new old (rngValue env f epat) f kernel) (st : VecState arch) :
    Triple (fun s => (0 ≤ env.myCpu → st = f (env.blocks env.vmMap)) ∧
        Holds env new old (env.wordsOf env.vmMap) (fun _ => False) s)
      (env.vmMap.reverse.foldlM (rngSegmentDown env edge kernel) st)
      (fun _ => TestState.Sound env) (SoundExit env (vecBytes arch)) := by
  refine (Triple.foldlM_reverse (I := fun before st s =>
    (0 ≤ env.myCpu → st = f (env.blocks before)) ∧
      Holds env new old (env.wordsOf before) (fun _ => False) s)
    (fun before seg after hmap st => ?_) st).post fun _ s hs => hs.2.sound
  refine (rngSegmentDown_triple hok hspin hmap hedge hkernel
    fun q hq => wordsOf_append.mpr (.inr hq)).post fun st s hs =>
      ⟨hs.1, hs.2.mono (fun q hq => ⟨?_, fun hmem => ?_⟩) fun _ hq => hq⟩
  · exact wordsOf_append.mpr (.inl hq)
  · exact hok.notMem_before hmap hmem hq

/-- Checking a stray word for its old value and writing its new one. -/
theorem edgeSpec_checkWrite {val : ℕ → Testword arch} {expect value : Testword arch}
    (hold : ∀ q, val q = epat → expect = old q) (hnew : ∀ q, val q = epat → value = new q) :
    EdgeSpec env new old val epat fun q => checkWrite env q expect value := by
  intro todo done a q hcpu haq htodo hval
  refine (checkWord_triple (Q := fun _ => Handled env new old todo done a q) fun s h => ?_).bind
    fun _ => Triple.modify fun s h => ?_
  · rw [hold q hval]
    exact Holds.check h hcpu ⟨htodo, by omega⟩
  · rw [hnew q hval]
    exact h.write haq

/-- `test_mov_inv_rng` reports only faulty words. -/
theorem testMovInvRng_triple (hok : RngOk env) (hspin : 4 ∣ env.spinSize) (simdTier : Bool)
    (clock : Clock) (splatRound : Bool) :
    Triple (TestState.Sound env) (testMovInvRng env simdTier clock splatRound)
      (fun _ => TestState.Sound env) (SoundExit env (vecBytes arch)) := by
  rw [testMovInvRng]
  generalize seedLanes (clock.seed arch * BitVec.ofNat arch.bits 0x12345678) splatRound = st
  -- block `i` gets the lane states after `i` steps
  set f : ℕ → VecState arch := fun i => (nextState splatRound)^[i] st with hfdef
  have hf : IsLaneSeq splatRound f := fun i => Function.iterate_succ_apply' _ _ _
  have hf0 : st = f 0 := rfl
  generalize st 0 = epat
  rw [hf0]
  set val := rngValue env f epat with hval
  intro s₀ hs₀
  have hbegin : Holds env val s₀.store (env.wordsOf env.vmMap) (fun _ => False) s₀ :=
    ⟨hs₀, fun _ _ _ => rfl, fun _ _ => False.elim⟩
  refine ((passUp_triple _ _ hok hspin (fun todo done a q hcpu haq htodo hq => ?_)
    fun todo done a p m n hcpu hn hap hlanes _ => vecFill_triple hf hlanes hn hap).bind
    fun _ => ?_) s₀ hbegin
  · refine Triple.modify fun s h => ?_
    have hwrite := h.write haq
    rwa [hq] at hwrite
  · -- after the fill, all words hold their values
    refine (Holds.flushCaches_triple.pre fun s hs => hs.2).bind fun _ => ?_
    refine (((passUp_triple (fun q => ~~~val q) val hok hspin
      (edgeSpec_checkWrite (fun q hq => hq.symm) fun q hq => congrArg (~~~·) hq.symm)
      fun todo done a p m n hcpu _ hap hlanes htodo =>
        vecCheckFwd_triple hcpu hf hlanes (fun _ => rfl) hap htodo).pre fun s hs =>
      ⟨hs.sound, hs.done, fun _ _ => False.elim⟩).bind fun st => ?_)
    -- and after the upward pass their complements
    refine Triple.of_imp fun hst => ?_
    refine Holds.flushCaches_triple.bind fun _ => ?_
    refine ((passDown_triple val (fun q => ~~~val q) hok hspin
      (edgeSpec_checkWrite (fun q hq => congrArg (~~~·) hq.symm) fun q hq => hq.symm)
      (fun todo done c p m n hcpu hc hlanes htodo =>
        vecCheckRev_triple hcpu hf hlanes (fun _ => rfl) hc htodo) st).pre fun s hs =>
      ⟨hst, hs.sound, hs.done, fun _ _ => False.elim⟩).bind fun _ => Triple.pure fun s hs => hs

end

/-! ### No false alarms -/

/-- **No false alarms.** On a memory that works, none of the moving inversions tests reports an
error, however the segments are shared among the CPUs and whenever the test is cut short. For the
vector test `SPIN_SIZE` has to be a whole number of vector blocks, and no segment may begin in the
last block of the address space, where `round_up` wraps.

A memory works if every word reads back as what has been written into it (`hmem`); what it holds
before the test is arbitrary. The patterns, the number of iterations, the offset of the walking
bit and the clock from which the random tests take their seeds are arbitrary too. A test is cut
short by the answers of `do_tick`, which are a part of the environment. -/
theorem movInv_noDataError (hsegs : SegmentsOk arch env.vmMap)
    (hindex : env.cfg.IndexOk env.myCpu) (hmem : ∀ p v, env.readBack p v = v)
    (store : ℕ → Testword arch) :
    (∀ iterations pattern1 pattern2,
      ((testMovInvFixed env iterations pattern1 pattern2).exec (.init store)).2.NoDataError) ∧
    (∀ iterations offset inverse,
      ((testMovInvWalk1 env iterations offset inverse).exec (.init store)).2.NoDataError) ∧
    (∀ clock, ((testMovInvRandom env clock).exec (.init store)).2.NoDataError) ∧
    (vecLanes ∣ env.spinSize →
      (∀ seg ∈ env.vmMap, seg.start + vecBytes arch ≤ 2 ^ arch.bits) →
      ∀ simdTier clock splatRound,
        ((testMovInvRng env simdTier clock splatRound).exec (.init store)).2.NoDataError) := by
  have hword := nodup_words hsegs (alignOk_wordBytes arch) hindex
  have hzero := zero_notMem_words hsegs (alignOk_wordBytes arch) hindex
  have hinit : TestState.Sound env (.init store) := fun _ _ _ _ h => absurd h List.not_mem_nil
  have hnone : ∀ s : TestState arch, s.Sound env → s.NoDataError := fun s hs p good bad u hp => by
    obtain ⟨-, v, hv⟩ := hs p good bad u hp
    exact hv (hmem p v)
  refine ⟨fun iterations pattern1 pattern2 => ?_, fun iterations offset inverse => ?_,
    fun clock => ?_, fun hspin htop simdTier clock splatRound => ?_⟩
  · exact (testMovInvFixed_triple hword hzero iterations pattern1 pattern2).final hinit
      (fun _ s hs => hnone s hs.sound) fun _ s hs => hnone s hs.1
  · exact (testMovInvWalk1_triple hword hzero iterations offset inverse).final hinit
      (fun _ s hs => hnone s hs) fun _ s hs => hnone s hs.1
  · exact (testMovInvRandom_triple hword clock).final hinit
      (fun _ s hs => hnone s hs) fun _ s hs => hnone s hs.1
  · exact (testMovInvRng_triple (rngOk hsegs hindex htop) hspin simdTier clock splatRound).final
      hinit (fun _ s hs => hnone s hs) fun _ s hs => hnone s hs.1

/-- The theorem at two segments of one CPU. -/
theorem movInv_noDataError_twoSegments :
    ((testMovInvWalk1 (sampleEnv fun _ v => v) 3 0 true).exec
        (.init fun _ => 0#64)).2.NoDataError ∧
      ((testMovInvRng (sampleEnv fun _ v => v) true ⟨true, 1, 0⟩ false).exec
        (.init fun _ => 0#64)).2.NoDataError := by
  have h := movInv_noDataError (segmentsOk_sampleEnv fun _ v => v) (.inl rfl) (fun _ _ => rfl)
    fun _ => 0#64
  refine ⟨h.2.1 3 0 true, h.2.2.2 (by decide) ?_ true ⟨true, 1, 0⟩ false⟩
  simp only [sampleEnv, List.mem_cons, List.not_mem_nil, or_false, forall_eq_or_imp, forall_eq]
  exact ⟨by decide, by decide⟩

end Memtest
