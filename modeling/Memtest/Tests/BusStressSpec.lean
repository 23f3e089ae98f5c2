import Memtest.Tests.BusStress
import Memtest.Tests.MovInvRngSpec
import Memtest.Tests.Verified

/-!
# The bus stress test raises no false alarms

The two halves of a body and the stray words around it have sequences of their own. At the end of a
round the second half and the stray words hold what was written to them in that round; the first
half has been verified and holds complements. The first sweep of the next round verifies the former
while it fills the first half, which the second sweep verifies in turn. The bursts of a sweep take
turns between two ranges that have no word in common, so how long they are does not matter.
-/

namespace Memtest

open Hoare

variable {arch : Arch} {env : TestEnv arch}

/-! ### Bursts -/

section

variable {R : Exit → TestState arch → Prop} {base : List (Event arch)}
  {known seen : ℕ → Testword arch → Prop} {valw valr : ℕ → Testword arch}
  {fw fr : ℕ → VecState arch} {a c mw mr pw pr nw nr : ℕ} {simdTier : Bool} {burstBlocks : ℕ}

/-- What is known between two bursts: the words from `a` up to `pw` have been filled, those from `c`
up to `pr` have been checked. -/
def Turn (env : TestEnv arch) (base : List (Event arch)) (valw valr : ℕ → Testword arch)
    (known seen : ℕ → Testword arch → Prop) (a pw c pr : ℕ) : TestState arch → Prop :=
  Knows env base (Filled valw a pw fun q v => ValuesOff known c pr q v) (Verified valr c pr seen)

/-- The fill of a burst, and what comes after it. -/
theorem burstFill_triple {Q : TestState arch → Prop} {k : VecState arch → TestM arch Unit}
    (hfw : IsLaneSeq false fw) (hvalw : LaneValues valw fw mw pw nw) (ha : a ≤ pw)
    (hk : Triple (Turn env base valw valr known seen a (pw + nw * 4) c pr) (k (fw (mw + nw)))
      (fun _ => Q) R) :
    Triple (Turn env base valw valr known seen a pw c pr)
      (if 0 < nw then vecFill simdTier false nw (fw mw) pw >>= k else k (fw mw))
      (fun _ => Q) R := by
  refine Triple.ite (fun hpos => (Knows.vecFill_triple hfw hvalw hpos ha).bind fun st =>
    Triple.of_imp fun hst => hst ▸ hk) fun hzero => ?_
  obtain rfl : nw = 0 := by omega
  simpa using hk

/-- The check of a burst, and what comes after it. -/
theorem burstCheck_triple {Q : TestState arch → Prop} {k : VecState arch → TestM arch Unit}
    (hmem : ∀ q v, env.readBack q v = v) (hcpu : 0 ≤ env.myCpu)
    (hfr : IsLaneSeq false fr) (hvalr : LaneValues valr fr mr pr nr) (hc : c ≤ pr)
    (hknown : ∀ q, pr ≤ q → q < pr + nr * 4 → known q (valr q))
    (hdisj : pw ≤ c ∨ pr + nr * 4 ≤ a)
    (hk : Triple (Turn env base valw valr known seen a pw c (pr + nr * 4)) (k (fr (mr + nr)))
      (fun _ => Q) R) :
    Triple (Turn env base valw valr known seen a pw c pr)
      (if 0 < nr then vecCheckFwd env simdTier false false nr (fr mr) pr >>= k else k (fr mr))
      (fun _ => Q) R := by
  refine Triple.ite (fun hpos => ?_) fun hzero => ?_
  · -- the filled range is out of the way of the check
    have hfilled : ∀ q, pr ≤ q → q < pr + nr * 4 → Filled valw a pw known q (valr q) :=
      fun q h1 h2 => .inr ⟨by omega, hknown q h1 h2⟩
    refine ((Knows.vecCheckFwd_triple hmem hcpu hfr hvalr hc hfilled).pre fun s hs =>
      hs.mono (fun q v => (filled_valuesOff (by omega)).mpr) fun _ _ => id).bind fun st =>
      Triple.of_imp fun hst => ?_
    exact hst ▸ hk.pre fun s hs =>
      hs.mono (fun q v => (filled_valuesOff hdisj).mp) fun _ _ => id
  · obtain rfl : nr = 0 := by omega
    simpa using hk

/-- **The bursts**, of any length: the one range is filled and the other one verified. -/
theorem burstLoop_triple (hmem : ∀ q v, env.readBack q v = v) (hcpu : 0 ≤ env.myCpu)
    (hburst : 0 < burstBlocks) (hfw : IsLaneSeq false fw) (hfr : IsLaneSeq false fr)
    (hvalw : LaneValues valw fw mw pw nw) (hvalr : LaneValues valr fr mr pr nr) (ha : a ≤ pw)
    (hc : c ≤ pr) (hknown : ∀ q, pr ≤ q → q < pr + nr * 4 → known q (valr q))
    (hdisj : pw + nw * 4 ≤ c ∨ pr + nr * 4 ≤ a) :
    Triple (Turn env base valw valr known seen a pw c pr)
      (burstLoop env simdTier burstBlocks hburst pw nw (fw mw) pr nr (fr mr))
      (fun _ => Turn env base valw valr known seen a (pw + nw * 4) c (pr + nr * 4)) R := by
  induction hn : nw + nr using Nat.strongRecOn generalizing mw mr pw pr nw nr with
  | _ n ih =>
    rw [burstLoop]
    split
    · next hpos =>
      -- a burst deals with as many blocks of a range as there are, up to `burstBlocks`
      set kw := if nw < burstBlocks then nw else burstBlocks with hkw
      set kr := if nr < burstBlocks then nr else burstBlocks with hkr
      have hlew : kw ≤ nw := by rw [hkw]; split <;> omega
      have hler : kr ≤ nr := by rw [hkr]; split <;> omega
      have hlt : nw - kw + (nr - kr) < n := by
        rw [← hn, hkw, hkr]
        split <;> split <;> omega
      have hnextw := hvalw.drop (k := kw) (j := nw - kw) (by omega)
      have hnextr := hvalr.drop (k := kr) (j := nr - kr) (by omega)
      have h := ih _ hlt hnextw hnextr (by omega) (by omega)
        (fun q h1 h2 => hknown q (by omega) (by omega)) (by omega) rfl
      rw [show pw + kw * 4 + (nw - kw) * 4 = pw + nw * 4 by omega,
        show pr + kr * 4 + (nr - kr) * 4 = pr + nr * 4 by omega] at h
      refine burstFill_triple hfw (fun i hi => hvalw i (by omega)) ha ?_
      exact burstCheck_triple hmem hcpu hfr (fun i hi => hvalr i (by omega)) hc
        (fun q h1 h2 => hknown q h1 (by omega)) (by omega) h
    · next hzero =>
      obtain ⟨rfl, rfl⟩ : nw = 0 ∧ nr = 0 := by omega
      exact Triple.pure fun s hs => by simpa using hs

end

/-! ### The sequences of a chunk -/

/-- The value of a word in a sequence that begins at `h`. -/
def laneValue (st : VecState arch) (h q : ℕ) : Testword arch :=
  (nextState false)^[(q - h) / 4] st (Fin.ofNat vecLanes (q - h))

theorem isLaneSeq_iterate (st : VecState arch) :
    IsLaneSeq false fun i => (nextState false)^[i] st :=
  fun _ => Function.iterate_succ_apply' _ _ _

theorem laneValues_laneValue (st : VecState arch) (h n : ℕ) :
    LaneValues (laneValue st h) (fun i => (nextState false)^[i] st) 0 h n := by
  intro i hi l
  have hl : (l : ℕ) < 4 := l.isLt
  have hlane : Fin.ofNat vecLanes (i * 4 + l) = l := Fin.ext (by
    change (i * 4 + (l : ℕ)) % 4 = l
    omega)
  rw [laneValue, show h + i * 4 + (l : ℕ) - h = i * 4 + l by omega, hlane,
    show (i * 4 + (l : ℕ)) / 4 = 0 + i by omega]

/-- The parts of a chunk. -/
inductive BusPart
  | first
  | second
  | edge
  deriving DecidableEq

/-- Where the second half of the body begins. -/
def Split.half (x : Split) : ℕ := x.bstart + x.nbody / vecLanes / 2 * vecLanes

/-- The words of a part. -/
def BusPart.Mem (x : Split) (q : ℕ) : BusPart → Prop
  | .first => x.bstart ≤ q ∧ q < x.half
  | .second => x.half ≤ q ∧ q < x.bstart + x.nbody
  | .edge => (x.start ≤ q ∧ q < x.stop + 1) ∧ ¬ (x.bstart ≤ q ∧ q < x.bstart + x.nbody)

/-- What is written to a word of a part in a round. -/
def busValue (passNum : ℕ) (iteration : ℤ) (j : ℕ) (x : Split) (q : ℕ) :
    BusPart → Testword arch
  | .first => laneValue (seedLanes (busSeed arch passNum iteration j 0) false) x.bstart q
  | .second => laneValue (seedLanes (busSeed arch passNum iteration j 1) false) x.half q
  | .edge => busSeed arch passNum iteration j 2

/-- The words of a part with their values of a round. Without a round, nothing is said of them. -/
def Split.PartHas (x : Split) (passNum j : ℕ) (part : BusPart) (round : Option ℤ) (q : ℕ)
    (v : Testword arch) : Prop :=
  part.Mem x q ∧ ∃ iteration, round = some iteration ∧ v = busValue passNum iteration j x q part

/-- The words of a split chunk with their values of the rounds given. -/
def Split.Has (x : Split) (passNum j : ℕ) (rounds : BusPart → Option ℤ) (q : ℕ)
    (v : Testword arch) : Prop :=
  ∃ part, x.PartHas passNum j part (rounds part) q v

/-- How the chunk of a segment is split, unless it is empty. -/
def TestEnv.splitOf (env : TestEnv arch) (seg : VmSegment) : Option Split :=
  match calculateChunk arch env.cfg env.myCpu seg (vecBytes arch) with
  | some c => if c.stop < c.start then none else some (splitChunk arch c)
  | none => none

/-- The words of a segment, which is given with its number. -/
def TestEnv.Has (env : TestEnv arch) (passNum : ℕ) (rounds : BusPart → Option ℤ)
    (seg : VmSegment × ℕ) (q : ℕ) (v : Testword arch) : Prop :=
  ∃ x, env.splitOf seg.1 = some x ∧ x.Has passNum seg.2 rounds q v

/-- The words of some segments. -/
def TestEnv.AllHave (env : TestEnv arch) (passNum : ℕ) (rounds : BusPart → Option ℤ)
    (segs : List (VmSegment × ℕ)) (q : ℕ) (v : Testword arch) : Prop :=
  ∃ seg ∈ segs, env.Has passNum rounds seg q v

/-- The rounds of the three parts. -/
def BusPart.rounds (first second edge : Option ℤ) : BusPart → Option ℤ
  | .first => first
  | .second => second
  | .edge => edge

theorem SplitOk.half_le {x : Split} (hx : SplitOk x) :
    x.bstart ≤ x.half ∧ x.half ≤ x.bstart + x.nbody ∧
      x.half + (x.nbody / vecLanes - x.nbody / vecLanes / 2) * 4 = x.bstart + x.nbody := by
  obtain ⟨n, hn⟩ := hx.dvd_nbody
  simp only [Split.half, vecLanes]
  omega

/-- A word of a part is a word of the chunk. -/
theorem SplitOk.mem_chunk {x : Split} (hx : SplitOk x) {part : BusPart} {q : ℕ}
    (h : part.Mem x q) : x.start ≤ q ∧ q < x.stop + 1 := by
  have hstart := hx.start_le
  have hend := hx.body_le
  obtain ⟨h1, h2, -⟩ := hx.half_le
  cases part with
  | first =>
    obtain ⟨hlo, hhi⟩ := h
    exact ⟨by omega, by omega⟩
  | second =>
    obtain ⟨hlo, hhi⟩ := h
    exact ⟨by omega, by omega⟩
  | edge => exact h.1

/-- Each word of a chunk belongs to a part. -/
theorem exists_part (x : Split) {q : ℕ} (hlo : x.start ≤ q) (hhi : q < x.stop + 1) :
    ∃ part : BusPart, part.Mem x q := by
  by_cases hbody : x.bstart ≤ q ∧ q < x.bstart + x.nbody
  · by_cases hhalf : q < x.half
    · exact ⟨.first, hbody.1, hhalf⟩
    · exact ⟨.second, by omega, hbody.2⟩
  · exact ⟨.edge, ⟨hlo, hhi⟩, hbody⟩

/-- The parts of a chunk have no word in common. -/
theorem BusPart.mem_unique {x : Split} {part part' : BusPart} {q : ℕ} (hx : SplitOk x)
    (h : part.Mem x q) (h' : part'.Mem x q) : part = part' := by
  obtain ⟨h1, h2, -⟩ := hx.half_le
  have hmem : ∀ {part : BusPart}, part.Mem x q →
      part = if x.bstart ≤ q ∧ q < x.bstart + x.nbody then
        if q < x.half then .first else .second else .edge := by
    intro part h
    cases part with
    | first => rw [if_pos ⟨h.1, by have := h.2; omega⟩, if_pos h.2]
    | second => rw [if_pos ⟨by have := h.1; omega, h.2⟩, if_neg (by have := h.1; omega)]
    | edge => rw [if_neg h.2]
  rw [hmem h, hmem h']

section

variable {x : Split} {passNum j : ℕ} {rounds : BusPart → Option ℤ} {part : BusPart} {q : ℕ}
  {v : Testword arch}

theorem Split.Has.mem_chunk (hx : SplitOk x) (h : x.Has passNum j rounds q v) :
    x.start ≤ q ∧ q < x.stop + 1 := by
  obtain ⟨part, hmem, -⟩ := h
  exact hx.mem_chunk hmem

/-- A part gets the values of a new round. -/
theorem has_update (hx : SplitOk x) {round : Option ℤ}
    (h : x.Has passNum j (Function.update rounds part round) q v) :
    x.PartHas passNum j part round q v ∨ ¬ part.Mem x q ∧ x.Has passNum j rounds q v := by
  obtain ⟨part', hmem, hround⟩ := h
  by_cases heq : part' = part
  · subst heq
    rw [Function.update_self] at hround
    exact .inl ⟨hmem, hround⟩
  · rw [Function.update_of_ne heq] at hround
    exact .inr ⟨fun h => heq (BusPart.mem_unique hx hmem h), part', hmem, hround⟩

/-- Nothing is said of a part any more. -/
theorem has_forget (hx : SplitOk x)
    (h : x.Has passNum j (Function.update rounds part none) q v) :
    ¬ part.Mem x q ∧ x.Has passNum j rounds q v :=
  (has_update hx h).resolve_left fun h => by
    obtain ⟨-, iteration, hnone, -⟩ := h
    exact nomatch hnone

end

/-! ### The stray words -/

section

variable {R : Exit → TestState arch → Prop} {base : List (Event arch)}
  {known seen : ℕ → Testword arch → Prop} {prev cur : Testword arch} {iteration : ℕ} {x : Split}

theorem readWord_keep {P : TestState arch → Prop} (q : ℕ) :
    Triple P (readWord env q) (fun _ => P) R :=
  (Triple.get fun _ hs => hs).bind fun _ => Triple.pure fun _ ht => ht

theorem busEdge_triple (hmem : ∀ q v, env.readBack q v = v) (hcpu : 0 ≤ env.myCpu) {first q : ℕ}
    (hq : first ≤ q) (hknown : 0 < iteration → known q prev) :
    Triple (Knows env base (Filled (fun _ => cur) first q known)
        fun p v => seen p v ∨ 0 < iteration ∧ ValuesOn (fun _ => prev) first q p v)
      (busEdge env iteration prev cur q)
      (fun _ => Knows env base (Filled (fun _ => cur) first (q + 1) known)
        fun p v => seen p v ∨ 0 < iteration ∧ ValuesOn (fun _ => prev) first (q + 1) p v) R := by
  refine Triple.ite (fun hpos => ?_) fun hzero => ?_
  · refine (Knows.checkWord_triple hmem hcpu (.inr ⟨by omega, hknown hpos⟩)).bind fun _ =>
      (Knows.fillWord_triple rfl hq).pre fun s hs => hs.mono (fun _ _ => id) fun p v hv => ?_
    obtain hv | ⟨-, hp, rfl⟩ := hv
    · exact .inl (.inl hv)
    · by_cases heq : p = q
      · exact .inr ⟨heq, rfl⟩
      · exact .inl (.inr ⟨hpos, by omega, rfl⟩)
  · refine (readWord_keep q).bind fun _ =>
      (Knows.fillWord_triple rfl hq).pre fun s hs => hs.mono (fun _ _ => id) fun p v hv => ?_
    exact .inl (hv.resolve_right fun h => hzero h.1)

/-- The stray words between two addresses. -/
theorem forWords_busEdge_triple (hmem : ∀ q v, env.readBack q v = v) (hcpu : 0 ≤ env.myCpu)
    {first limit : ℕ} (hknown : 0 < iteration → ∀ q, first ≤ q → q < limit → known q prev) :
    Triple (Knows env base known seen) (forWords first limit (busEdge env iteration prev cur))
      (fun _ => Knows env base (Filled (fun _ => cur) first (max first limit) known)
        fun q v => seen q v ∨ 0 < iteration ∧
          ValuesOn (fun _ => prev) first (max first limit) q v) R := by
  refine (forWords_triple (I := fun b => Knows env base (Filled (fun _ => cur) first b known)
    fun q v => seen q v ∨ 0 < iteration ∧ ValuesOn (fun _ => prev) first b q v)
    fun q h1 h2 => busEdge_triple hmem hcpu h1 fun hpos => hknown hpos q h1 h2).pre
    fun s hs => hs.mono (fun q v => filled_self.mp) fun q v hv => ?_
  exact hv.resolve_right fun h => absurd h.2.1 (by omega)

/-- All stray words of a chunk: they are checked for the constant of the round before, if there is
one, and get that of this round. -/
theorem busEdges_triple (hmem : ∀ q v, env.readBack q v = v) (hcpu : 0 ≤ env.myCpu)
    (hx : SplitOk x) (hknown : 0 < iteration → ∀ q, BusPart.edge.Mem x q → known q prev) :
    Triple (Knows env base known seen)
      (do lowerEdge x (busEdge env iteration prev cur)
          upperEdge x (busEdge env iteration prev cur))
      (fun _ => Knows env base
        (fun q v => BusPart.edge.Mem x q ∧ v = cur ∨ ¬ BusPart.edge.Mem x q ∧ known q v)
        fun q v => seen q v ∨ 0 < iteration ∧ BusPart.edge.Mem x q ∧ v = prev) R := by
  have hstart := hx.start_le
  have hedge : ∀ q, BusPart.edge.Mem x q ↔ x.start ≤ q ∧ q < min x.bstart (x.stop + 1) ∨
      x.bstart + x.nbody ≤ q ∧ q < x.stop + 1 := by
    intro q
    simp only [BusPart.Mem]
    omega
  refine (forWords_busEdge_triple hmem hcpu fun hpos q h1 h2 =>
    hknown hpos q ((hedge q).mpr (.inl ⟨h1, h2⟩))).bind fun _ => ?_
  refine (forWords_busEdge_triple hmem hcpu fun hpos q h1 h2 =>
    .inr ⟨by omega, hknown hpos q ((hedge q).mpr (.inr ⟨h1, h2⟩))⟩).post fun _ s hs =>
    hs.mono (fun q v hv => ?_) fun q v hv => ?_
  · obtain ⟨hq, rfl⟩ | ⟨hq, hv⟩ := hv
    · obtain hq | hq := (hedge q).mp hq
      · exact .inr ⟨by omega, .inl ⟨by omega, rfl⟩⟩
      · exact .inl ⟨by omega, rfl⟩
    · rw [hedge] at hq
      exact .inr ⟨by omega, .inr ⟨by omega, hv⟩⟩
  · obtain hv | ⟨hpos, hq, rfl⟩ := hv
    · exact .inl (.inl hv)
    · obtain hq | hq := (hedge q).mp hq
      · exact .inl (.inr ⟨hpos, by omega, rfl⟩)
      · exact .inr ⟨hpos, by omega, rfl⟩

end

/-! ### The halves -/

section

variable {R : Exit → TestState arch → Prop} {base : List (Event arch)}
  {known seen rest : ℕ → Testword arch → Prop} {simdTier : Bool} {burstBlocks : ℕ}
  {hburst : 0 < burstBlocks} {stw str : VecState arch} {h1 n1 h2 n2 : ℕ} {x : Split}
  {passNum iteration j : ℕ} {rounds : BusPart → Option ℤ} {p₁ p₂ : BusPart}

/-- The bursts from the beginning. -/
theorem bursts_triple (hmem : ∀ q v, env.readBack q v = v) (hcpu : 0 ≤ env.myCpu)
    (hknown : ∀ q, h2 ≤ q → q < h2 + n2 * 4 → known q (laneValue str h2 q))
    (hdisj : h1 + n1 * 4 ≤ h2 ∨ h2 + n2 * 4 ≤ h1) :
    Triple (Knows env base known seen)
      (burstLoop env simdTier burstBlocks hburst h1 n1 stw h2 n2 str)
      (fun _ => Knows env base
        (Filled (laneValue stw h1) h1 (h1 + n1 * 4) fun q v => ValuesOff known h2 (h2 + n2 * 4) q v)
        (Verified (laneValue str h2) h2 (h2 + n2 * 4) seen)) R :=
  (burstLoop_triple hmem hcpu hburst (isLaneSeq_iterate stw) (isLaneSeq_iterate str)
    (laneValues_laneValue stw h1 n1) (laneValues_laneValue str h2 n2) (Nat.le_refl h1)
    (Nat.le_refl h2) hknown hdisj).pre fun _ hs =>
    hs.mono (fun _ _ hv => valuesOff_self.mp (filled_self.mp hv)) fun _ _ => verified_self.mp

/-- While one part of a chunk is filled, another one is verified, if it has been filled before. -/
theorem busHalves_triple (hmem : ∀ q v, env.readBack q v = v) (hcpu : 0 ≤ env.myCpu)
    (hx : SplitOk x) (hfill : ∀ q, p₁.Mem x q ↔ h1 ≤ q ∧ q < h1 + n1 * 4)
    (hcheck : ∀ q, h2 ≤ q ∧ q < h2 + n2 * 4 ↔ p₂.Mem x q ∧ rounds p₂ ≠ none)
    (hstw : ∀ q, busValue passNum iteration j x q p₁ = laneValue stw h1 q)
    (hstr : ∀ i, rounds p₂ = some i → ∀ q, busValue passNum i j x q p₂ = laneValue str h2 q)
    (hdisj : h1 + n1 * 4 ≤ h2 ∨ h2 + n2 * 4 ≤ h1)
    (hrest : ∀ q v, rest q v → ¬ (x.start ≤ q ∧ q < x.stop + 1)) :
    Triple (Knows env base (fun q v => x.Has passNum j rounds q v ∨ rest q v) seen)
      (burstLoop env simdTier burstBlocks hburst h1 n1 stw h2 n2 str)
      (fun _ => Knows env base
        (fun q v => x.Has passNum j (Function.update (Function.update rounds p₂ none) p₁
          (some (iteration : ℤ))) q v ∨ rest q v)
        fun q v => seen q v ∨ x.PartHas passNum j p₂ (rounds p₂) q v) R := by
  have hknown : ∀ q, h2 ≤ q → q < h2 + n2 * 4 →
      x.Has passNum j rounds q (laneValue str h2 q) ∨ rest q (laneValue str h2 q) := by
    intro q hlo hhi
    obtain ⟨hq, hne⟩ := (hcheck q).mp ⟨hlo, hhi⟩
    obtain ⟨i, hi⟩ := Option.ne_none_iff_exists'.mp hne
    exact .inl ⟨p₂, hq, i, hi, (hstr i hi q).symm⟩
  refine (bursts_triple hmem hcpu hknown hdisj).post fun _ s hs =>
    hs.mono (fun q v hv => ?_) fun q v hv => ?_
  · obtain hv | hv := hv
    · obtain ⟨hq, i, hi, rfl⟩ | ⟨hq, hv⟩ := has_update hx hv
      · obtain rfl := Option.some.inj hi
        exact .inl ⟨(hfill q).mp hq, hstw q⟩
      · -- the part is neither the one that is filled nor the one that is checked
        obtain ⟨hoff, hv⟩ := has_forget hx hv
        exact .inr ⟨fun h => hq ((hfill q).mpr h), fun h => hoff ((hcheck q).mp h).1, .inl hv⟩
    · have hout := hrest q v hv
      exact .inr ⟨fun h => hout (hx.mem_chunk ((hfill q).mpr h)),
        fun h => hout (hx.mem_chunk ((hcheck q).mp h).1), .inr hv⟩
  · obtain hv | ⟨hq, i, hi, rfl⟩ := hv
    · exact .inl hv
    · exact .inr ⟨(hcheck q).mpr ⟨hq, by simp [hi]⟩, hstr i hi q⟩

end

/-! ### What is known between the sweeps -/

/-- The round before, if there is one. -/
def roundBefore (iteration : ℕ) : Option ℤ :=
  if 0 < iteration then some ((iteration : ℤ) - 1) else none

/-- What has been filled when a sweep begins. -/
def sweepRounds (iteration : ℕ) (second : Bool) : BusPart → Option ℤ :=
  if second = false then BusPart.rounds none (roundBefore iteration) (roundBefore iteration)
  else BusPart.rounds (some iteration) none (some iteration)

/-- What has been filled when a sweep ends. -/
def sweepNext (iteration : ℕ) (second : Bool) : BusPart → Option ℤ :=
  if second = false then sweepRounds iteration true else sweepRounds (iteration + 1) false

/-- The half a sweep fills. -/
def filledHalf (second : Bool) : BusPart := if second = false then .first else .second

/-- The half a sweep verifies. -/
def checkedHalf (second : Bool) : BusPart := if second = false then .second else .first

/-- What has been filled once the stray words have been dealt with. -/
def bodyRounds (iteration : ℕ) (second : Bool) : BusPart → Option ℤ :=
  Function.update (sweepRounds iteration second) .edge (some (iteration : ℤ))

/-- What a sweep verifies. -/
def sweepReads (iteration : ℕ) (second : Bool) : BusPart → Option ℤ :=
  if second = false then sweepRounds iteration false
  else BusPart.rounds (some iteration) none none

theorem roundBefore_succ (iteration : ℕ) : roundBefore (iteration + 1) = some (iteration : ℤ) := by
  rw [roundBefore, if_pos (Nat.succ_pos iteration), Int.natCast_succ, Int.add_sub_cancel]

theorem sweepNext_eq (iteration : ℕ) (second : Bool) :
    sweepNext iteration second = Function.update (Function.update (bodyRounds iteration second)
      (checkedHalf second) none) (filledHalf second) (some (iteration : ℤ)) := by
  funext part
  cases second <;> cases part <;>
    simp [sweepNext, sweepRounds, bodyRounds, checkedHalf, filledHalf, BusPart.rounds,
      Function.update, roundBefore_succ]

theorem bodyRounds_true (iteration : ℕ) : bodyRounds iteration true = sweepRounds iteration true :=
  Function.update_eq_self _ _

/-! ### One segment -/

section

variable {R : Exit → TestState arch → Prop} {base : List (Event arch)}
  {seen rest : ℕ → Testword arch → Prop} {simdTier second : Bool} {burstBlocks : ℕ}
  {hburst : 0 < burstBlocks} {x : Split} {passNum iteration j : ℕ}

theorem busBursts_triple (hmem : ∀ q v, env.readBack q v = v) (hcpu : 0 ≤ env.myCpu)
    (hx : SplitOk x) (hrest : ∀ q v, rest q v → ¬ (x.start ≤ q ∧ q < x.stop + 1)) :
    Triple (Knows env base
        (fun q v => x.Has passNum j (bodyRounds iteration second) q v ∨ rest q v) seen)
      (busBursts env simdTier passNum iteration second burstBlocks hburst x j)
      (fun _ => Knows env base
        (fun q v => x.Has passNum j (sweepNext iteration second) q v ∨ rest q v)
        fun q v => seen q v ∨ x.PartHas passNum j (checkedHalf second)
          (bodyRounds iteration second (checkedHalf second)) q v) R := by
  obtain ⟨hlo, hhi, hlast⟩ := hx.half_le
  have hfirst : ∀ q, BusPart.first.Mem x q ↔
      x.bstart ≤ q ∧ q < x.bstart + x.nbody / vecLanes / 2 * 4 := fun _ => Iff.rfl
  have hsecond : ∀ q, BusPart.second.Mem x q ↔
      x.half ≤ q ∧ q < x.half + (x.nbody / vecLanes - x.nbody / vecLanes / 2) * 4 := fun q => by
    rw [hlast]
    exact Iff.rfl
  rw [sweepNext_eq]
  cases second with
  | true =>
    refine busHalves_triple hmem hcpu hx hsecond (fun q => ?_) (fun _ => rfl) (fun i hi q => ?_)
      (.inr (Nat.le_refl _)) hrest
    · exact (hfirst q).symm.trans ⟨fun h => ⟨h, nofun⟩, And.left⟩
    · rw [← Option.some.inj hi]
      rfl
  | false =>
    have hround : bodyRounds iteration false (checkedHalf false) = roundBefore iteration := rfl
    by_cases hpos : 0 < iteration
    · rw [busBursts, if_pos rfl, if_pos hpos]
      refine busHalves_triple hmem hcpu hx hfirst (fun q => ?_) (fun _ => rfl) (fun i hi q => ?_)
        (.inl (Nat.le_refl _)) hrest
      · rw [hround, roundBefore, if_pos hpos]
        exact (hsecond q).symm.trans ⟨fun h => ⟨h, nofun⟩, And.left⟩
      · rw [hround, roundBefore, if_pos hpos] at hi
        rw [← Option.some.inj hi]
        rfl
    · -- in the first round nothing is verified
      have hnone : bodyRounds iteration false (checkedHalf false) = none := by
        rw [hround, roundBefore, if_neg hpos]
      rw [busBursts, if_pos rfl, if_neg hpos]
      refine busHalves_triple hmem hcpu hx hfirst (fun q => ?_) (fun _ => rfl) (fun i hi q => ?_)
        (.inl (Nat.le_refl _)) hrest
      · exact ⟨fun h => absurd h.2 (by omega), fun h => absurd hnone h.2⟩
      · exact absurd (hnone.symm.trans hi) nofun

/-- The body of a chunk. -/
theorem busBody_triple (hmem : ∀ q v, env.readBack q v = v) (hx : SplitOk x)
    (hrest : ∀ q v, rest q v → ¬ (x.start ≤ q ∧ q < x.stop + 1)) :
    Triple (Knows env base
        (fun q v => x.Has passNum j (bodyRounds iteration second) q v ∨ rest q v) seen)
      (if x.nbody = 0 then skipRange env 1
      else oneBlock env (fun _ _ =>
        busBursts env simdTier passNum iteration second burstBlocks hburst x j) 0 ())
      (fun _ => Knows env base
        (fun q v => x.Has passNum j (sweepNext iteration second) q v ∨ rest q v)
        fun q v => seen q v ∨ x.PartHas passNum j (checkedHalf second)
          (bodyRounds iteration second (checkedHalf second)) q v)
      (QuietExit env (vecBytes arch)) := by
  refine Triple.ite (fun hzero => ?_) fun hpos => ?_
  · -- a chunk without a body has no halves
    have hempty : ∀ q (part : BusPart), part ≠ .edge → ¬ part.Mem x q := by
      obtain ⟨hlo, hhi, -⟩ := hx.half_le
      intro q part hpart hmem
      cases part with
      | first => have := hmem.1; have := hmem.2; omega
      | second => have := hmem.1; have := hmem.2; omega
      | edge => exact hpart rfl
    have hfilled : filledHalf second ≠ .edge := by cases second <;> exact nofun
    have hchecked : checkedHalf second ≠ .edge := by cases second <;> exact nofun
    refine ((Knows.stable (vecBytes arch)).skipRange_triple 1).post fun _ s hs =>
      hs.mono (fun q v hv => hv.imp_left fun hv => ?_) fun q v hv => ?_
    · rw [sweepNext_eq] at hv
      have hv := (has_update hx hv).resolve_left fun h => hempty q _ hfilled h.1
      exact (has_forget hx hv.2).2
    · exact hv.resolve_right fun h => hempty q _ hchecked h.1
  · exact oneBlock_triple (Knows.stable (vecBytes arch)) (fun _ => Knows.stable _)
      (fun hcpu s hs => hs.dummy hcpu) fun hcpu => busBursts_triple hmem hcpu hx hrest

/-- The stray words of a chunk in the first sweep, unless this is a dummy run. -/
theorem busEdgesFirst_triple (hmem : ∀ q v, env.readBack q v = v) (hx : SplitOk x)
    (hrest : ∀ q v, rest q v → ¬ (x.start ≤ q ∧ q < x.stop + 1)) :
    Triple (Knows env base
        (fun q v => x.Has passNum j (sweepRounds iteration false) q v ∨ rest q v) seen)
      (unlessDummy env do
        lowerEdge x (busEdge env iteration (busSeed arch passNum (iteration - 1) j 2)
          (busSeed arch passNum iteration j 2))
        upperEdge x (busEdge env iteration (busSeed arch passNum (iteration - 1) j 2)
          (busSeed arch passNum iteration j 2)))
      (fun _ => Knows env base
        (fun q v => x.Has passNum j (bodyRounds iteration false) q v ∨ rest q v)
        fun q v => seen q v ∨ x.PartHas passNum j .edge (roundBefore iteration) q v) R := by
  refine Triple.ite (fun hcpu => ?_) fun hcpu => Triple.pure fun s hs => hs.dummy (by omega)
  refine (busEdges_triple hmem hcpu hx fun hpos q hq =>
    .inl ⟨.edge, hq, _, if_pos hpos, rfl⟩).post fun _ s hs =>
    hs.mono (fun q v hv => ?_) fun q v hv => ?_
  · obtain hv | hv := hv
    · obtain ⟨hq, i, hi, rfl⟩ | ⟨hq, hv⟩ := has_update hx hv
      · obtain rfl := Option.some.inj hi
        exact .inl ⟨hq, rfl⟩
      · exact .inr ⟨hq, .inl hv⟩
    · exact .inr ⟨fun h => hrest q v hv h.1, .inr hv⟩
  · obtain hv | ⟨hq, i, hi, rfl⟩ := hv
    · exact .inl hv
    · rw [roundBefore] at hi
      split at hi
      · next hpos =>
        obtain rfl := Option.some.inj hi
        exact .inr ⟨hpos, hq, rfl⟩
      · exact nomatch hi

theorem splitOf_of_lt {seg : VmSegment} {c : Chunk}
    (hc : calculateChunk arch env.cfg env.myCpu seg (vecBytes arch) = some c)
    (hlt : c.stop < c.start) : env.splitOf seg = none := by
  rw [TestEnv.splitOf, hc]
  exact if_pos hlt

theorem splitOf_of_le {seg : VmSegment} {c : Chunk}
    (hc : calculateChunk arch env.cfg env.myCpu seg (vecBytes arch) = some c)
    (hle : ¬ c.stop < c.start) : env.splitOf seg = some (splitChunk arch c) := by
  rw [TestEnv.splitOf, hc]
  exact if_neg hle

/-- **One segment** in one sweep. -/
theorem busSegment_triple (hok : RngOk env) (hmem : ∀ q v, env.readBack q v = v)
    {seg : VmSegment × ℕ} (hseg : seg.1 ∈ env.vmMap)
    (hrest : ∀ q v, rest q v → q ∉ env.segmentWords (vecBytes arch) seg.1) :
    Triple (Knows env base
        (fun q v => env.Has passNum (sweepRounds iteration second) seg q v ∨ rest q v) seen)
      (busSegment env simdTier passNum iteration second burstBlocks hburst seg)
      (fun _ => Knows env base
        (fun q v => env.Has passNum (sweepNext iteration second) seg q v ∨ rest q v)
        fun q v => seen q v ∨ env.Has passNum (sweepReads iteration second) seg q v)
      (QuietExit env (vecBytes arch)) := by
  refine ((Knows.stable (vecBytes arch)).chunkOf_triple hseg).bind fun c =>
    Triple.of_imp fun hc => Triple.ite (fun hlt => ?_) fun hle => ?_
  · have hnone := splitOf_of_lt hc hlt
    have hempty : ∀ rounds q v, ¬ env.Has passNum rounds seg q v := by
      rintro rounds q v ⟨x, hx, -⟩
      exact nomatch hnone.symm.trans hx
    exact ((Knows.stable (vecBytes arch)).skipRange_triple 1).post fun _ s hs =>
      hs.mono (fun q v hv => .inr (hv.resolve_left (hempty _ q v)))
        fun q v hv => hv.resolve_right (hempty _ q v)
  · have hat := hok.split seg.1 hseg c hc hle
    have hsplit := splitOf_of_le hc hle
    have hhas : ∀ rounds q v, env.Has passNum rounds seg q v ↔
        (splitChunk arch c).Has passNum seg.2 rounds q v := fun rounds q v =>
      ⟨fun ⟨x, hx, hv⟩ => Option.some.inj (hsplit.symm.trans hx) ▸ hv, fun hv => ⟨_, hsplit, hv⟩⟩
    simp only [hhas]
    generalize splitChunk arch c = x at hat ⊢
    have hout : ∀ q v, rest q v → ¬ (x.start ≤ q ∧ q < x.stop + 1) := by
      intro q v hv hq
      refine hrest q v hv ?_
      rw [hat.words, List.mem_range'_1]
      omega
    cases second with
    | false =>
      refine (busEdgesFirst_triple hmem hat.ok hout).bind fun _ =>
        (busBody_triple hmem hat.ok hout).post fun _ s hs => hs.mono (fun _ _ => id) ?_
      rintro q v (hv | ⟨part, hpart⟩)
      · exact .inl (.inl hv)
      · cases part with
        | first => exact nomatch hpart.2
        | second => exact .inr hpart
        | edge => exact .inl (.inr hpart)
    | true =>
      rw [← bodyRounds_true]
      refine (busBody_triple hmem hat.ok hout).post fun _ s hs => hs.mono (fun _ _ => id) ?_
      rintro q v (hv | ⟨part, hpart⟩)
      · exact .inl hv
      · cases part with
        | first => exact .inr hpart
        | second => exact nomatch hpart.2
        | edge => exact nomatch hpart.2

end

/-! ### Sweeps and rounds -/

section

variable {base : List (Event arch)} {seen : ℕ → Testword arch → Prop} {simdTier second : Bool}
  {burstBlocks : ℕ} {hburst : 0 < burstBlocks} {passNum iteration : ℕ}

/-- A segment has no words in common with the others. -/
theorem RngOk.notMem_others (hok : RngOk env) {before after : List VmSegment} {seg : VmSegment}
    (hmap : env.vmMap = before ++ seg :: after) {q : ℕ}
    (hq : q ∈ env.segmentWords (vecBytes arch) seg) {other : VmSegment}
    (hother : other ∈ before ∨ other ∈ after) :
    q ∉ env.segmentWords (vecBytes arch) other := by
  intro hmem
  have hnodup := hok.nodup
  rw [TestEnv.words, hmap, List.flatMap_append, List.flatMap_cons, List.nodup_append] at hnodup
  obtain ⟨-, hrest, hbefore⟩ := hnodup
  obtain hother | hother := hother
  · exact hbefore q (List.mem_flatMap.mpr ⟨other, hother, hmem⟩) q (List.mem_append_left _ hq) rfl
  · exact (List.nodup_append.mp hrest).2.2 q hq q (List.mem_flatMap.mpr ⟨other, hother, hmem⟩) rfl

/-- The words of a segment of which something is said belong to it. -/
theorem RngOk.mem_of_has (hok : RngOk env) {rounds : BusPart → Option ℤ} {seg : VmSegment × ℕ}
    (hseg : seg.1 ∈ env.vmMap) {q : ℕ} {v : Testword arch} (h : env.Has passNum rounds seg q v) :
    q ∈ env.segmentWords (vecBytes arch) seg.1 := by
  obtain ⟨x, hsplit, hx⟩ := h
  rw [TestEnv.splitOf] at hsplit
  split at hsplit
  · next c hc =>
    split at hsplit
    · exact nomatch hsplit
    · next hle =>
      obtain rfl := Option.some.inj hsplit
      have hat := hok.split seg.1 hseg c hc hle
      have hq := hx.mem_chunk hat.ok
      rw [hat.words, List.mem_range'_1]
      omega
  · exact nomatch hsplit

theorem allHave_append {rounds : BusPart → Option ℤ} {before : List (VmSegment × ℕ)}
    {seg : VmSegment × ℕ} {q : ℕ} {v : Testword arch} :
    env.AllHave passNum rounds (before ++ [seg]) q v ↔
      env.AllHave passNum rounds before q v ∨ env.Has passNum rounds seg q v := by
  simp only [TestEnv.AllHave, List.mem_append, List.mem_singleton, or_and_right, exists_or,
    exists_eq_left]

theorem allHave_cons {rounds : BusPart → Option ℤ} {after : List (VmSegment × ℕ)}
    {seg : VmSegment × ℕ} {q : ℕ} {v : Testword arch} :
    env.AllHave passNum rounds (seg :: after) q v ↔
      env.Has passNum rounds seg q v ∨ env.AllHave passNum rounds after q v := by
  simp only [TestEnv.AllHave, List.mem_cons, or_and_right, exists_or, exists_eq_left]

theorem not_allHave_nil {rounds : BusPart → Option ℤ} {q : ℕ} {v : Testword arch} :
    ¬ env.AllHave passNum rounds [] q v := by
  rintro ⟨seg, hseg, -⟩
  exact List.not_mem_nil hseg

/-- One step of a sweep: the segments dealt with have come one sweep further than the others. -/
theorem sweepStep_triple (hok : RngOk env) (hmem : ∀ q v, env.readBack q v = v)
    {before after : List (VmSegment × ℕ)} {seg : VmSegment × ℕ}
    (hl : env.vmMap.zipIdx = before ++ seg :: after) :
    Triple (Knows env base
        (fun q v => env.AllHave passNum (sweepNext iteration second) before q v ∨
          env.AllHave passNum (sweepRounds iteration second) (seg :: after) q v)
        fun q v => seen q v ∨ env.AllHave passNum (sweepReads iteration second) before q v)
      (busSegment env simdTier passNum iteration second burstBlocks hburst seg)
      (fun _ => Knows env base
        (fun q v => env.AllHave passNum (sweepNext iteration second) (before ++ [seg]) q v ∨
          env.AllHave passNum (sweepRounds iteration second) after q v)
        fun q v => seen q v ∨
          env.AllHave passNum (sweepReads iteration second) (before ++ [seg]) q v)
      (QuietExit env (vecBytes arch)) := by
  have hmap : env.vmMap = before.map Prod.fst ++ seg.1 :: after.map Prod.fst := by
    rw [← List.zipIdx_map_fst 0 env.vmMap, hl, List.map_append, List.map_cons]
  have hin : ∀ other, other ∈ before ∨ other ∈ after → other.1 ∈ env.vmMap := fun other h => by
    rw [hmap, List.mem_append, List.mem_cons]
    exact h.imp List.mem_map_of_mem fun h => .inr (List.mem_map_of_mem h)
  have hrest : ∀ q v, env.AllHave passNum (sweepNext iteration second) before q v ∨
      env.AllHave passNum (sweepRounds iteration second) after q v →
      q ∉ env.segmentWords (vecBytes arch) seg.1 := by
    rintro q v (⟨other, hother, hv⟩ | ⟨other, hother, hv⟩) hq
    · exact hok.notMem_others hmap hq (.inl (List.mem_map_of_mem hother))
        (hok.mem_of_has (hin other (.inl hother)) hv)
    · exact hok.notMem_others hmap hq (.inr (List.mem_map_of_mem hother))
        (hok.mem_of_has (hin other (.inr hother)) hv)
  have hseg : seg.1 ∈ env.vmMap := by
    rw [hmap]
    exact List.mem_append_right _ List.mem_cons_self
  simp only [allHave_append, allHave_cons]
  refine ((busSegment_triple hok hmem hseg hrest).pre fun s hs =>
    hs.mono (fun q v hv => ?_) fun _ _ => id).post fun _ s hs =>
      hs.mono (fun q v hv => ?_) fun q v hv => or_assoc.mpr hv
  · exact or_assoc.mp (hv.imp_left Or.symm)
  · exact or_left_comm.mp hv

/-- **A sweep** over all segments. -/
theorem doSweep_triple (hok : RngOk env) (hmem : ∀ q v, env.readBack q v = v) :
    Triple
      (Knows env base (env.AllHave passNum (sweepRounds iteration second) env.vmMap.zipIdx) seen)
      (doSweep env simdTier passNum iteration second burstBlocks hburst)
      (fun _ => Knows env base
        (env.AllHave passNum (sweepNext iteration second) env.vmMap.zipIdx)
        fun q v => seen q v ∨
          env.AllHave passNum (sweepReads iteration second) env.vmMap.zipIdx q v)
      (QuietExit env (vecBytes arch)) := by
  have hsweep := Triple.foldlM (l := env.vmMap.zipIdx)
    (R := QuietExit env (vecBytes arch))
    (f := fun (_ : Unit) seg =>
      busSegment env simdTier passNum iteration second burstBlocks hburst seg)
    (I := fun before _ => Knows env base
      (fun q v => env.AllHave passNum (sweepNext iteration second) before q v ∨
        env.AllHave passNum (sweepRounds iteration second)
          (env.vmMap.zipIdx.drop before.length) q v)
      fun q v => seen q v ∨ env.AllHave passNum (sweepReads iteration second) before q v)
    (fun before seg after hl _ => by
      have hdrop : env.vmMap.zipIdx.drop before.length = seg :: after := by rw [hl, List.drop_left]
      have hnext : env.vmMap.zipIdx.drop (before ++ [seg]).length = after := by
        rw [hl, List.append_cons before seg after, List.drop_left]
      rw [hdrop, hnext]
      exact sweepStep_triple hok hmem hl) ()
  refine (hsweep.pre fun s hs => hs.mono (fun q v hv => hv.resolve_left not_allHave_nil)
    fun q v hv => hv.resolve_right not_allHave_nil).post fun _ s hs =>
    hs.mono (fun _ _ => .inl) fun _ _ => id

end

/-- A round of `test_bus_stress` with bursts of any length. The code takes the length from the
number of the iteration; here each round may have its own. -/
def busRound (env : TestEnv arch) (simdTier : Bool) (passNum : ℕ) {burstBlocks : ℕ}
    (hburst : 0 < burstBlocks) (iteration : ℕ) : TestM arch Unit := do
  doSweep env simdTier passNum iteration false burstBlocks hburst
  flushCachesAll env
  doSweep env simdTier passNum iteration true burstBlocks hburst
  flushCachesAll env

/-- The first `n` rounds, each with bursts of a length of its own. -/
def busRounds (env : TestEnv arch) (simdTier : Bool) (passNum : ℕ) {burstBlocks : ℕ → ℕ}
    (hburst : ∀ i, 0 < burstBlocks i) (n : ℕ) : TestM arch Unit :=
  (List.range n).foldlM (fun _ i => busRound env simdTier passNum (hburst i) i) ()

section

variable {base : List (Event arch)} {seen : ℕ → Testword arch → Prop} {simdTier : Bool}
  {passNum : ℕ}

theorem Knows.flushCachesAll_triple {known : ℕ → Testword arch → Prop}
    {R : Exit → TestState arch → Prop} :
    Triple (Knows env base known seen) (flushCachesAll env)
      (fun _ => Knows env base known seen) R :=
  Triple.ite (fun _ => Triple.modify fun _ h => h.of_eq rfl rfl nofun nofun)
    fun _ => Triple.pure fun _ h => h

variable (simdTier passNum) in
/-- **A round**: it verifies the first half for what it has written itself, and everything else for
what the round before has written. -/
theorem busRound_triple (hok : RngOk env) (hmem : ∀ q v, env.readBack q v = v) {burstBlocks : ℕ}
    (hburst : 0 < burstBlocks) (iteration : ℕ) :
    Triple
      (Knows env base (env.AllHave passNum (sweepRounds iteration false) env.vmMap.zipIdx) seen)
      (busRound env simdTier passNum hburst iteration)
      (fun _ => Knows env base
        (env.AllHave passNum (sweepRounds (iteration + 1) false) env.vmMap.zipIdx)
        (env.AllHave passNum
          (BusPart.rounds (some iteration) (roundBefore iteration) (roundBefore iteration))
          env.vmMap.zipIdx))
      (QuietExit env (vecBytes arch)) := by
  have hsecond : ∀ seen, Triple
      (Knows env base (env.AllHave passNum (sweepRounds iteration true) env.vmMap.zipIdx) seen)
      (doSweep env simdTier passNum iteration true burstBlocks hburst)
      (fun _ => Knows env base (env.AllHave passNum (sweepNext iteration true) env.vmMap.zipIdx)
        fun q v => seen q v ∨ env.AllHave passNum (sweepReads iteration true) env.vmMap.zipIdx q v)
      (QuietExit env (vecBytes arch)) := fun _ => doSweep_triple hok hmem
  refine (doSweep_triple hok hmem).bind fun _ => Knows.flushCachesAll_triple.bind fun _ => ?_
  refine (hsecond _).bind fun _ => Knows.flushCachesAll_triple.post fun _ s hs =>
    hs.mono (fun _ _ => id) ?_
  rintro q v ⟨seg, hseg, x, hx, part, hpart⟩
  cases part with
  | first => exact .inr ⟨seg, hseg, x, hx, .first, hpart⟩
  | second => exact .inl (.inr ⟨seg, hseg, x, hx, .second, hpart⟩)
  | edge => exact .inl (.inr ⟨seg, hseg, x, hx, .edge, hpart⟩)

variable (base simdTier passNum) in
/-- **Any number of rounds.** -/
theorem busRounds_triple (hok : RngOk env) (hmem : ∀ q v, env.readBack q v = v)
    {burstBlocks : ℕ → ℕ} (hburst : ∀ i, 0 < burstBlocks i) (n : ℕ) :
    Triple (Knows env base (fun _ _ => False) fun _ _ => False)
      (busRounds env simdTier passNum hburst n)
      (fun _ => Knows env base (env.AllHave passNum (sweepRounds n false) env.vmMap.zipIdx)
        fun _ _ => False)
      (QuietExit env (vecBytes arch)) := by
  have hrounds := Triple.foldlM (l := List.range n) (R := QuietExit env (vecBytes arch))
    (f := fun (_ : Unit) i => busRound env simdTier passNum (hburst i) i)
    (I := fun before _ => Knows env base
      (env.AllHave passNum (sweepRounds before.length false) env.vmMap.zipIdx) fun _ _ => False)
    (fun before i after hl _ => by
      have hi : i = before.length := by
        have hget := congrArg (·[before.length]?) hl
        simp only [List.getElem?_append_right (Nat.le_refl _), Nat.sub_self,
          List.getElem?_cons_zero] at hget
        obtain ⟨hlt, hval⟩ := List.getElem?_eq_some_iff.mp hget
        rw [← hval, List.getElem_range]
      rw [hi, List.length_append, List.length_singleton]
      exact (busRound_triple simdTier passNum hok hmem (hburst _) _).post fun _ s hs =>
        hs.mono (fun _ _ => id) fun _ _ => False.elim) ()
  rw [List.length_range] at hrounds
  refine hrounds.pre fun s hs => hs.mono ?_ fun _ _ => id
  rintro q v ⟨seg, -, x, -, part, -, i, hround, -⟩
  cases part <;> exact nomatch hround

/-- Each word belongs to a part of the chunk of a segment. -/
theorem RngOk.allHave_of_mem (hok : RngOk env) {q : ℕ} (hq : q ∈ env.words (vecBytes arch))
    (first second edge : ℤ) : ∃ v, env.AllHave passNum
      (BusPart.rounds (some first) (some second) (some edge)) env.vmMap.zipIdx q v := by
  obtain ⟨seg, hseg, hq⟩ := List.mem_flatMap.mp hq
  obtain ⟨j, hj, rfl⟩ := List.mem_iff_getElem.mp hseg
  have hmem : (env.vmMap[j], j) ∈ env.vmMap.zipIdx :=
    List.mk_mem_zipIdx_iff_getElem?.mpr (List.getElem?_eq_getElem hj)
  cases hc : calculateChunk arch env.cfg env.myCpu env.vmMap[j] (vecBytes arch) with
  | none =>
    rw [TestEnv.segmentWords, hc] at hq
    exact absurd hq List.not_mem_nil
  | some c =>
    by_cases hlt : c.stop < c.start
    · rw [segmentWords_of_lt hc hlt] at hq
      exact absurd hq List.not_mem_nil
    · have hat := hok.split _ hseg c hc hlt
      rw [hat.words, List.mem_range'_1] at hq
      obtain ⟨part, hpart⟩ := exists_part (splitChunk arch c) hq.1 (by omega)
      obtain ⟨i, hi⟩ : ∃ i,
          BusPart.rounds (some first) (some second) (some edge) part = some i := by
        cases part <;> exact ⟨_, rfl⟩
      exact ⟨_, _, hmem, _, splitOf_of_le hc hlt, part, hpart, i, hi, rfl⟩

end

/-- A test that `bail` does not cut short comes to its end. -/
theorem exists_of_triple (hsegs : SegmentsOk arch env.vmMap) (hindex : env.cfg.IndexOk env.myCpu)
    (hbail : ∀ k, env.bail k = false) {P Q : TestState arch → Prop} {m : TestM arch Unit}
    (h : Triple P m (fun _ => Q) (QuietExit env (vecBytes arch))) {s : TestState arch} (hs : P s) :
    ∃ t, m.exec s = (.ok (), t) ∧ Q t := by
  have hrun := h s hs
  revert hrun
  obtain ⟨e | _, t⟩ := m.exec s
  · rintro ⟨-, hexit⟩
    cases e with
    | bailout => exact absurd ((hbail t.doTicks).symm.trans hexit) Bool.false_ne_true
    | divideError =>
      obtain ⟨seg, hseg, hnone⟩ := hexit
      obtain ⟨c, hc, -⟩ := inSegment_calculateChunk (hsegs.segment seg hseg)
        (alignOk_vecBytes arch) hindex
      exact absurd (hnone.symm.trans hc) (Option.some_ne_none c).symm
  · exact fun hQ => ⟨t, rfl, hQ⟩

/-- **No false alarms.** On a memory that works, no round of the test reports an error, however
long the bursts are and whenever the test is cut short. In each round after the first one that
comes to its end, as all rounds do if `bail` is never set, each word of the chunks is compared
with the value last written to it: that of this round in the first half of a body, and that of the
round before everywhere else. No segment may begin in the last block of the address space, where
`round_up` wraps.

The first part ties the rounds to the code: the test is the round with the burst length it takes
from the number of its iteration. The number `n` of rounds is arbitrary, and so are the segments,
the number of CPUs they are shared among and the memory at the start. -/
theorem busStress_verified (hsegs : SegmentsOk arch env.vmMap)
    (hindex : env.cfg.IndexOk env.myCpu) (hmem : ∀ p v, env.readBack p v = v)
    (htop : ∀ seg ∈ env.vmMap, seg.start + vecBytes arch ≤ 2 ^ arch.bits)
    (simdTier : Bool) (passNum : ℕ) (burstBlocks : ℕ → ℕ) (hburst : ∀ i, 0 < burstBlocks i)
    (store : ℕ → Testword arch) (n : ℕ) :
    (∀ i, testBusStress env simdTier passNum i =
      busRound env simdTier passNum (busBurstBlocks_pos i) i) ∧
    ((busRounds env simdTier passNum hburst n).exec (.init store)).2.NoDataError ∧
    (0 ≤ env.myCpu → 0 < n → ∀ s t,
      (busRounds env simdTier passNum hburst n).exec (.init store) = (.ok (), s) →
      (busRound env simdTier passNum (hburst n) n).exec s = (.ok (), t) →
      ∀ p ∈ env.words (vecBytes arch), ∃ value,
        env.AllHave passNum (BusPart.rounds (some n) (some (n - 1)) (some (n - 1)))
          env.vmMap.zipIdx p value ∧
        VerifiedSince s.log t.log p value) ∧
    ((∀ k, env.bail k = false) → ∃ s t,
      (busRounds env simdTier passNum hburst n).exec (.init store) = (.ok (), s) ∧
      (busRound env simdTier passNum (hburst n) n).exec s = (.ok (), t)) := by
  have hok := rngOk hsegs hindex htop
  have hinit : Knows env [] (fun _ _ => False) (fun _ _ => False) (.init store) :=
    ⟨fun _ _ _ _ => List.not_mem_nil, nofun, List.prefix_refl _, fun _ _ _ => False.elim,
      fun _ _ _ => False.elim⟩
  have hrounds := busRounds_triple [] simdTier passNum hok hmem hburst n
  refine ⟨fun i => rfl, hrounds.final hinit (fun _ s hs => hs.quiet) fun _ s hs => hs.1,
    fun hcpu hn s t hs ht p hp => ?_, fun hbail => ?_⟩
  · have hknown := hrounds _ hinit
    rw [hs] at hknown
    have hround := busRound_triple simdTier passNum hok hmem (hburst n) n s hknown.rebase
    rw [ht, roundBefore, if_pos hn] at hround
    obtain ⟨value, hvalue⟩ := hok.allHave_of_mem hp n (n - 1) (n - 1)
    exact ⟨value, hvalue, hround.seen hcpu p value hvalue⟩
  · obtain ⟨s, hs, hknown⟩ := exists_of_triple hsegs hindex hbail hrounds hinit
    obtain ⟨t, ht, -⟩ := exists_of_triple hsegs hindex hbail
      (busRound_triple simdTier passNum hok hmem (hburst n) n) hknown
    exact ⟨s, t, hs, ht⟩

/-- The theorem at two segments of one CPU, for a stray word and for a word of each half. -/
theorem busStress_verified_twoSegments :
    ∃ s t : TestState .b64,
      (busRounds (sampleEnv fun _ v => v) true 0 busBurstBlocks_pos 1).exec (.init fun _ => 0#64) =
        (.ok (), s) ∧
      (testBusStress (sampleEnv fun _ v => v) true 0 1).exec s = (.ok (), t) ∧
      ∀ p ∈ [0x201, 0x2000, 0x3fff], ∃ value, VerifiedSince s.log t.log p value := by
  have h := busStress_verified (segmentsOk_sampleEnv fun _ v => v) (.inl rfl) (fun _ _ => rfl)
    (by
      simp only [sampleEnv, List.mem_cons, List.not_mem_nil, or_false, forall_eq_or_imp, forall_eq]
      exact ⟨by decide, by decide⟩) true 0 busBurstBlocks busBurstBlocks_pos (fun _ => 0#64) 1
  obtain ⟨s, t, hs, ht⟩ := h.2.2.2 fun _ => rfl
  refine ⟨s, t, hs, (congrArg (·.exec s) (h.1 1)).trans ht, fun p hp => ?_⟩
  have hedge : 0x201 ∈ (sampleEnv fun _ v => v).segmentWords 32 ⟨0x1, 0x1000, 0x1010, 0⟩ := by
    decide
  have hbody : ∀ q, 0x2000 ≤ q → q < 0x4000 →
      q ∈ (sampleEnv fun _ v => v).segmentWords 32 ⟨0x10, 0x10000, 0x1fff8, 0⟩ :=
    fun q hlo hhi => List.mem_range'_1.mpr ⟨hlo, hhi⟩
  have hwords : p ∈ (sampleEnv fun _ v => v).words 32 := by
    simp only [List.mem_cons, List.not_mem_nil, or_false] at hp
    rcases hp with rfl | rfl | rfl
    · exact segmentWords_subset List.mem_cons_self hedge
    · exact segmentWords_subset (List.mem_cons_of_mem _ List.mem_cons_self)
        (hbody _ (by decide) (by decide))
    · exact segmentWords_subset (List.mem_cons_of_mem _ List.mem_cons_self)
        (hbody _ (by decide) (by decide))
  obtain ⟨value, -, hvalue⟩ := h.2.2.1 (by decide) (by decide) s t hs ht p hwords
  exact ⟨value, hvalue⟩

end Memtest
