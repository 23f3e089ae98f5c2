import Memtest.Badram.Order
import Mathlib.Data.List.Dedup
import Mathlib.Data.Set.Card
import Mathlib.Order.Interval.Finset.Nat

/-!
# The range modes

In the memmap and the bad-pages mode an entry is a range of test words, from `addr` to `mask`
inclusive. The ranges of the table are ordered by their lower ends, which are all different, but
they need not be disjoint: an entry that grows by one word at its upper end may run into its
successor and past it, so that the successor lies inside it.

As long as no merge is forced the ranges hold exactly the words inserted. A forced merge joins the
last two neighbours whose upper ends are closest, and that adds the words between the highest end
so far and the lower end of the second one.
-/

namespace Memtest

variable {arch : Arch} {mode : ErrorMode}

/-- An address of a test word. The tests report words, so these are the addresses that can come. -/
def WordAligned (arch : Arch) (x : BitVec 64) : Prop := arch.wordBytes ∣ x.toNat

instance : DecidablePred (WordAligned arch) := fun x =>
  inferInstanceAs (Decidable (arch.wordBytes ∣ x.toNat))

/-- The words of the recorded ranges. Ranges may overlap, and a word counts once. -/
def recordedWords (arch : Arch) (patterns : List Pattern) : Set (BitVec 64) :=
  {x | WordAligned arch x ∧ ∃ p ∈ patterns, p.addr ≤ x ∧ x ≤ p.mask}

/-- The words inserted by some calls. -/
def insertedWords (calls : List (BitVec arch.bits × BitVec arch.bits)) : Set (BitVec 64) :=
  {x | ∃ c ∈ calls, insertAddr c.1 c.2 = x}

/-- The invariant of the table: the lower ends increase, and every entry is a range of words. -/
structure RangeTable (arch : Arch) (patterns : List Pattern) : Prop where
  increasing : patterns.Pairwise fun p q => p.addr < q.addr
  ordered : ∀ p ∈ patterns, p.addr ≤ p.mask
  addr_aligned : ∀ p ∈ patterns, WordAligned arch p.addr
  mask_aligned : ∀ p ∈ patterns, WordAligned arch p.mask

theorem RangeTable.sorted {ps : List Pattern} (h : RangeTable arch ps) : SortedByAddr ps :=
  h.increasing.imp BitVec.le_of_lt

theorem rangeTable_nil : RangeTable arch [] :=
  ⟨List.Pairwise.nil, by simp, by simp, by simp⟩

/-! ### Growing by one word -/

/-- Combining costs nothing exactly for an address within the range. -/
theorem absorbCost_eq_zero_iff (hm : mode ≠ .badram) {p : Pattern} (hp : p.addr ≤ p.mask)
    (a : BitVec 64) : absorbCost arch mode a p = 0#64 ↔ p.addr ≤ a ∧ a ≤ p.mask := by
  simp only [absorbCost, combiCost, combine, newPattern, if_neg hm]
  constructor
  · intro h
    split at h <;> split at h <;> bv_omega
  · rintro ⟨hlo, hhi⟩
    split <;> split <;> bv_omega

/-- Combining costs one word exactly for the words on either side of the range. -/
theorem absorbCost_eq_word_iff (hm : mode ≠ .badram) {p : Pattern} (hp : p.addr ≤ p.mask)
    (a : BitVec 64) : absorbCost arch mode a p = BitVec.ofNat 64 arch.wordBytes ↔
      a.toNat + arch.wordBytes = p.addr.toNat ∨ a.toNat = p.mask.toNat + arch.wordBytes := by
  have hword : (BitVec.ofNat 64 arch.wordBytes).toNat = arch.wordBytes := by cases arch <;> rfl
  have hpos := arch.wordBytes_pos
  simp only [absorbCost, combiCost, combine, newPattern, if_neg hm]
  rw [← BitVec.toNat_inj, hword]
  constructor
  · intro h
    split at h <;> split at h <;> bv_omega
  · intro h
    split <;> split <;> bv_omega

/-- The range an entry becomes when it takes a word on either side of it. -/
theorem combine_word (hm : mode ≠ .badram) {p : Pattern} (hp : p.addr ≤ p.mask) {a : BitVec 64}
    (h : absorbCost arch mode a p = BitVec.ofNat 64 arch.wordBytes) :
    combine mode p.addr p.mask a (newPattern arch mode a).mask =
      if a.toNat + arch.wordBytes = p.addr.toNat then ⟨a, p.mask⟩ else ⟨p.addr, a⟩ := by
  have hpos := arch.wordBytes_pos
  rw [absorbCost_eq_word_iff hm hp] at h
  simp only [combine, newPattern, if_neg hm]
  by_cases hlow : a.toNat + arch.wordBytes = p.addr.toNat
  · rw [if_pos hlow, if_neg (by bv_omega), if_pos (by bv_omega)]
  · rw [if_neg hlow, if_pos (by bv_omega), if_neg (by bv_omega)]

/-- There is no word between a word and its successor. -/
theorem le_of_lt_add_word {x y : BitVec 64} (hx : WordAligned arch x) (hy : WordAligned arch y)
    (h : x.toNat < y.toNat + arch.wordBytes) : x ≤ y := by
  obtain ⟨k, hk⟩ := hx
  obtain ⟨l, hl⟩ := hy
  rw [BitVec.le_def, hk, hl]
  rw [hk, hl, ← Nat.mul_succ] at h
  exact Nat.mul_le_mul_left _ (Nat.le_of_lt_succ (Nat.lt_of_mul_lt_mul_left h))

/-- The words of the larger range are those of the smaller one and the word taken. -/
theorem mem_combine_word_iff (hm : mode ≠ .badram) {p : Pattern} (hp : p.addr ≤ p.mask)
    (haddr : WordAligned arch p.addr) (hmask : WordAligned arch p.mask) {a x : BitVec 64}
    (ha : WordAligned arch a) (hx : WordAligned arch x)
    (h : absorbCost arch mode a p = BitVec.ofNat 64 arch.wordBytes) :
    let c := combine mode p.addr p.mask a (newPattern arch mode a).mask
    c.addr ≤ x ∧ x ≤ c.mask ↔ x = a ∨ p.addr ≤ x ∧ x ≤ p.mask := by
  have hpos := arch.wordBytes_pos
  have hsides := (absorbCost_eq_word_iff hm hp a).mp h
  rw [combine_word hm hp h]
  by_cases hlow : a.toNat + arch.wordBytes = p.addr.toNat
  · rw [if_pos hlow]
    constructor
    · rintro ⟨hlo, hhi⟩
      by_cases hxa : x = a
      · exact .inl hxa
      · exact .inr ⟨le_of_lt_add_word haddr hx (by bv_omega), hhi⟩
    · rintro (rfl | ⟨hlo, hhi⟩)
      · exact ⟨BitVec.le_refl x, by bv_omega⟩
      · exact ⟨by bv_omega, hhi⟩
  · rw [if_neg hlow]
    constructor
    · rintro ⟨hlo, hhi⟩
      by_cases hxa : x = a
      · exact .inl hxa
      · exact .inr ⟨hlo, le_of_lt_add_word hx hmask (by bv_omega)⟩
    · rintro (rfl | ⟨hlo, hhi⟩)
      · exact ⟨by bv_omega, BitVec.le_refl x⟩
      · exact ⟨hlo, by bv_omega⟩

theorem mem_recordedWords_middle {front back : List Pattern} {p : Pattern} {x : BitVec 64} :
    x ∈ recordedWords arch (front ++ p :: back) ↔
      WordAligned arch x ∧ ((p.addr ≤ x ∧ x ≤ p.mask) ∨
        ∃ q ∈ front ++ back, q.addr ≤ x ∧ x ≤ q.mask) := by
  simp only [recordedWords, Set.mem_ofPred_eq, List.mem_append, List.mem_cons]
  refine and_congr_right fun _ => ⟨?_, ?_⟩
  · rintro ⟨q, hq | rfl | hq, hx⟩
    · exact .inr ⟨q, .inl hq, hx⟩
    · exact .inl hx
    · exact .inr ⟨q, .inr hq, hx⟩
  · rintro (hx | ⟨q, hq | hq, hx⟩)
    · exact ⟨p, .inr (.inl rfl), hx⟩
    · exact ⟨q, .inl hq, hx⟩
    · exact ⟨q, .inr (.inr hq), hx⟩

theorem forall_mem_middle {α : Type*} {P : α → Prop} {front back : List α} {c : α} :
    (∀ q ∈ front ++ c :: back, P q) ↔ P c ∧ ∀ q ∈ front ++ back, P q := by
  simp only [List.forall_mem_append, List.forall_mem_cons]
  tauto

/-- The first entry that can take the word takes it, and nothing else changes. -/
theorem rangeTable_grow (hm : mode ≠ .badram) {front back : List Pattern} {p : Pattern}
    {a : BitVec 64} (h : RangeTable arch (front ++ p :: back)) (ha : WordAligned arch a)
    (hfront : ∀ q ∈ front, PassedOver arch mode a q)
    (hword : absorbCost arch mode a p = BitVec.ofNat 64 arch.wordBytes) :
    let ps := front ++ combine mode p.addr p.mask a (newPattern arch mode a).mask :: back
    RangeTable arch ps ∧
      recordedWords arch ps = insert a (recordedWords arch (front ++ p :: back)) := by
  have hpos := arch.wordBytes_pos
  have hp : p.addr ≤ p.mask := h.ordered p (by simp)
  have hsides := (absorbCost_eq_word_iff hm hp a).mp hword
  obtain ⟨hincF, hincB, hincFB⟩ := List.pairwise_append.mp h.increasing
  obtain ⟨hincP, hincB⟩ := List.pairwise_cons.mp hincB
  dsimp only
  have hc := combine_word hm hp hword
  have hmem := fun x => mem_combine_word_iff (x := x) hm hp (h.addr_aligned p (by simp))
    (h.mask_aligned p (by simp)) ha
  set c := combine mode p.addr p.mask a (newPattern arch mode a).mask
  have hcle : c.addr ≤ p.addr ∧ c.addr ≤ c.mask := by
    rw [hc]
    split <;> dsimp only <;> constructor <;> bv_omega
  -- An entry in front that reaches the lower end of the larger range would have taken the word.
  have hbelow : ∀ q ∈ front, q.addr < c.addr := by
    intro q hq
    have hlt : q.addr < p.addr := hincFB q hq p List.mem_cons_self
    have hqord := h.ordered q (List.mem_append_left _ hq)
    have hnotin := mt (absorbCost_eq_zero_iff hm hqord a).mpr (hfront q hq).1
    rw [hc]
    split
    · next hlow =>
      have hle : q.addr ≤ a := by
        refine le_of_lt_add_word (h.addr_aligned q (List.mem_append_left _ hq)) ha ?_
        bv_omega
      dsimp only
      bv_omega
    · exact hlt
  have haligned : WordAligned arch c.addr ∧ WordAligned arch c.mask := by
    rw [hc]
    split
    · exact ⟨ha, h.mask_aligned p (by simp)⟩
    · exact ⟨h.addr_aligned p (by simp), ha⟩
  refine ⟨⟨?_, ?_, ?_, ?_⟩, ?_⟩
  · refine List.pairwise_append.mpr ⟨hincF, List.pairwise_cons.mpr ⟨?_, hincB⟩, ?_⟩
    · intro q hq
      have hlt := hincP q hq
      bv_omega
    · intro q hq r hr
      rcases List.mem_cons.mp hr with rfl | hr
      · exact hbelow q hq
      · exact hincFB q hq r (List.mem_cons_of_mem p hr)
  · exact forall_mem_middle.mpr ⟨hcle.2, (forall_mem_middle.mp h.ordered).2⟩
  · exact forall_mem_middle.mpr ⟨haligned.1, (forall_mem_middle.mp h.addr_aligned).2⟩
  · exact forall_mem_middle.mpr ⟨haligned.2, (forall_mem_middle.mp h.mask_aligned).2⟩
  · ext x
    rw [Set.mem_insert_iff, mem_recordedWords_middle, mem_recordedWords_middle]
    constructor
    · rintro ⟨hx, hin | hin⟩
      · rcases (hmem x hx hword).mp hin with rfl | hin
        · exact .inl rfl
        · exact .inr ⟨hx, .inl hin⟩
      · exact .inr ⟨hx, .inr hin⟩
    · rintro (rfl | ⟨hx, hin | hin⟩)
      · exact ⟨ha, .inl ((hmem x ha hword).mpr (.inl rfl))⟩
      · exact ⟨hx, .inl ((hmem x hx hword).mpr (.inr hin))⟩
      · exact ⟨hx, .inr hin⟩

/-- Inserting a range with a new lower end. -/
theorem rangeTable_insertSorted (hm : mode ≠ .badram) {p : Pattern} {ps : List Pattern}
    (h : RangeTable arch ps) (hne : ∀ q ∈ ps, q.addr ≠ p.addr) (hp : p.addr ≤ p.mask)
    (haddr : WordAligned arch p.addr) (hmask : WordAligned arch p.mask) :
    RangeTable arch (insertSorted mode p ps) := by
  have hmem : ∀ q, q ∈ insertSorted mode p ps ↔ q = p ∨ q ∈ ps := fun q => by
    rw [(insertSorted_spec mode p ps).2 q, normalise, if_neg hm]
  have hperm : (insertSorted mode p ps).Perm (p :: ps) := by
    simp only [insertSorted, if_neg hm, insertAt]
    refine List.perm_middle.trans ?_
    rw [List.take_append_drop]
  have hdistinct : (insertSorted mode p ps).Pairwise fun q r => q.addr ≠ r.addr := by
    refine (hperm.pairwise_iff fun hqr => hqr.symm).mpr (List.pairwise_cons.mpr ⟨?_, ?_⟩)
    · exact fun q hq => (hne q hq).symm
    · exact h.increasing.imp BitVec.ne_of_lt
  refine ⟨?_, ?_, ?_, ?_⟩
  · refine ((sorted_insertSorted mode p h.sorted).and hdistinct).imp fun hqr => ?_
    exact BitVec.not_le.mp fun hle => hqr.2 (BitVec.le_antisymm hqr.1 hle)
  · exact fun q hq => ((hmem q).mp hq).elim (fun hqp => hqp ▸ hp) (h.ordered q)
  · exact fun q hq => ((hmem q).mp hq).elim (fun hqp => hqp ▸ haddr) (h.addr_aligned q)
  · exact fun q hq => ((hmem q).mp hq).elim (fun hqp => hqp ▸ hmask) (h.mask_aligned q)

theorem mem_recordedWords_insertSorted (hm : mode ≠ .badram) {p : Pattern} {ps : List Pattern}
    {x : BitVec 64} : x ∈ recordedWords arch (insertSorted mode p ps) ↔
      WordAligned arch x ∧ p.addr ≤ x ∧ x ≤ p.mask ∨ x ∈ recordedWords arch ps := by
  simp only [recordedWords, Set.mem_ofPred_eq, (insertSorted_spec mode p ps).2, normalise,
    if_neg hm]
  constructor
  · rintro ⟨hx, q, rfl | hq, hin⟩
    · exact .inl ⟨hx, hin⟩
    · exact .inr ⟨hx, q, hq, hin⟩
  · rintro (⟨hx, hin⟩ | ⟨hx, q, hq, hin⟩)
    · exact ⟨hx, p, .inl rfl, hin⟩
    · exact ⟨hx, q, .inr hq, hin⟩

/-- The table with an entry of its own for the new address. -/
def withNew (arch : Arch) (mode : ErrorMode) (a : BitVec 64) (patterns : List Pattern) :
    List Pattern :=
  insertSorted mode (newPattern arch mode a) patterns

theorem length_withNew (a : BitVec 64) (ps : List Pattern) :
    (withNew arch mode a ps).length = ps.length + 1 :=
  (insertSorted_spec _ _ _).1

/-- A new word that no range can take gets a range of its own. -/
theorem rangeTable_new (hm : mode ≠ .badram) {ps : List Pattern} {a : BitVec 64}
    (h : RangeTable arch ps) (ha : WordAligned arch a) (hall : ∀ q ∈ ps, PassedOver arch mode a q) :
    RangeTable arch (withNew arch mode a ps) ∧
      recordedWords arch (withNew arch mode a ps) = insert a (recordedWords arch ps) := by
  have hmask : (newPattern arch mode a).mask = a := by rw [newPattern, if_neg hm]
  constructor
  · refine rangeTable_insertSorted hm h (fun q hq heq => ?_)
      (BitVec.le_of_eq hmask.symm) ha (by rwa [hmask])
    -- A range that starts at the word holds it.
    have hnotin := mt (absorbCost_eq_zero_iff hm (h.ordered q hq) a).mpr (hall q hq).1
    have hqa : q.addr = a := heq
    exact hnotin ⟨BitVec.le_of_eq hqa, hqa ▸ h.ordered q hq⟩
  · ext x
    rw [withNew, mem_recordedWords_insertSorted hm, Set.mem_insert_iff, hmask]
    refine or_congr_left ⟨fun hx => BitVec.le_antisymm hx.2.2 hx.2.1, ?_⟩
    rintro rfl
    exact ⟨ha, BitVec.le_refl x, BitVec.le_refl x⟩

/-! ### The forced merge -/

/-- What the forced merge makes of a table whose cheapest pair is at `idx`. -/
def mergeAt (mode : ErrorMode) (idx : ℕ) (patterns : List Pattern) : List Pattern :=
  insertSorted mode (combinedPattern mode patterns idx (idx + 1)) (removePair idx patterns)

/-- The highest upper end. -/
def topEnd (patterns : List Pattern) : ℕ :=
  (patterns.map fun p => p.mask.toNat).foldr max 0

/-- How much higher the second of two neighbours ends. -/
def rise (patterns : List Pattern) (idx : ℕ) : ℕ :=
  (patterns.getD (idx + 1) ⟨0#64, 0#64⟩).mask.toNat - (patterns.getD idx ⟨0#64, 0#64⟩).mask.toNat

/-- The number of bytes between the words up to the first of two neighbours and those of the second
one. -/
def gap (arch : Arch) (patterns : List Pattern) (idx : ℕ) : ℕ :=
  (patterns.getD (idx + 1) ⟨0#64, 0#64⟩).addr.toNat -
    (topEnd (patterns.take (idx + 1)) + arch.wordBytes)

/-- The last of the pairs of neighbours whose upper ends are closest. This is what `cheapest_pair`
finds in the range modes: with the lower ends in order the cost of a pair comes to the distance of
the upper ends, and later pairs win among equals. -/
structure LastClosest (patterns : List Pattern) (idx : ℕ) : Prop where
  lt : idx + 1 < patterns.length
  rise_le : ∀ j, j + 1 < patterns.length → rise patterns idx ≤ rise patterns j
  rise_lt : ∀ j, idx < j → j + 1 < patterns.length → rise patterns idx < rise patterns j

theorem LastClosest.unique {ps : List Pattern} {i j : ℕ} (hi : LastClosest ps i)
    (hj : LastClosest ps j) : i = j := by
  rcases Nat.lt_trichotomy i j with hlt | heq | hgt
  · exact absurd (hi.rise_lt j hlt hj.lt) (Nat.not_lt.mpr (hj.rise_le i hi.lt))
  · exact heq
  · exact absurd (hj.rise_lt i hgt hi.lt) (Nat.not_lt.mpr (hi.rise_le j hj.lt))

/-- The cost `cheapest_pair` computes for the pair at `idx`. -/
def pairCost (mode : ErrorMode) (patterns : List Pattern) (idx : ℕ) : BitVec 64 :=
  let p := patterns.getD idx ⟨0#64, 0#64⟩
  let q := patterns.getD (idx + 1) ⟨0#64, 0#64⟩
  combiCost mode p.addr p.mask q.addr q.mask

/-- The loop returns the index it was given if every cost still to come is above the minimum, and
otherwise the last pair of least cost. -/
theorem cheapestPairLoop_last {i idx : ℕ} {ps : List Pattern} {minCost : BitVec 64}
    {mergeIdx : Option ℕ} (h : cheapestPairLoop mode i ps minCost mergeIdx = some idx) :
    (mergeIdx = some idx ∧ ∀ j, j + 1 < ps.length → minCost < pairCost mode ps j) ∨
    ∃ k, idx = i + k ∧ k + 1 < ps.length ∧ pairCost mode ps k ≤ minCost ∧
      ∀ j, j + 1 < ps.length → pairCost mode ps k ≤ pairCost mode ps j ∧
        (k < j → pairCost mode ps k < pairCost mode ps j) := by
  induction ps generalizing i minCost mergeIdx with
  | nil => exact .inl ⟨h, fun j hj => absurd hj (Nat.not_lt_zero _)⟩
  | cons p ps ih =>
    rcases ps with _ | ⟨q, ps⟩
    · exact .inl ⟨h, fun j hj => absurd hj (by simp)⟩
    rw [cheapestPairLoop] at h
    have hlater : ∀ j, pairCost mode (p :: q :: ps) (j + 1) = pairCost mode (q :: ps) j :=
      fun j => rfl
    change (if pairCost mode (p :: q :: ps) 0 ≤ minCost then _ else _) = _ at h
    split at h
    · next hle =>
      rcases ih h with ⟨hidx, hall⟩ | ⟨k, rfl, hk, hcost, hall⟩
      · refine .inr ⟨0, (Option.some.inj hidx).symm, by simp, hle, fun j hj => ?_⟩
        rcases j with _ | j
        · exact ⟨BitVec.le_refl _, fun h => absurd h (Nat.lt_irrefl 0)⟩
        · have hlt := hall j (Nat.lt_of_succ_lt_succ hj)
          exact ⟨BitVec.le_of_lt hlt, fun _ => hlt⟩
      · refine .inr ⟨k + 1, by omega, Nat.succ_lt_succ hk, BitVec.le_trans hcost hle,
          fun j hj => ?_⟩
        rcases j with _ | j
        · exact ⟨hcost, fun h => absurd h (Nat.not_lt_zero _)⟩
        · obtain ⟨hle', hlt'⟩ := hall j (Nat.lt_of_succ_lt_succ hj)
          exact ⟨hle', fun h => hlt' (Nat.lt_of_succ_lt_succ h)⟩
    · next hgt =>
      have hgt := BitVec.not_le.mp hgt
      rcases ih h with ⟨hidx, hall⟩ | ⟨k, rfl, hk, hcost, hall⟩
      · refine .inl ⟨hidx, fun j hj => ?_⟩
        rcases j with _ | j
        · exact hgt
        · exact hall j (Nat.lt_of_succ_lt_succ hj)
      · refine .inr ⟨k + 1, by omega, Nat.succ_lt_succ hk, hcost, fun j hj => ?_⟩
        rcases j with _ | j
        · exact ⟨BitVec.le_trans hcost (BitVec.le_of_lt hgt), fun h => absurd h (Nat.not_lt_zero _)⟩
        · obtain ⟨hle', hlt'⟩ := hall j (Nat.lt_of_succ_lt_succ hj)
          exact ⟨hle', fun h => hlt' (Nat.lt_of_succ_lt_succ h)⟩

theorem getD_of_lt {ps : List Pattern} {i : ℕ} (h : i < ps.length) (d : Pattern) :
    ps.getD i d = ps[i] := by
  rw [List.getD_eq_getElem?_getD, List.getElem?_eq_getElem h, Option.getD_some]

/-- In the range modes the cost of a pair is the distance of its upper ends: its lower end does not
count, and so neither does the length of the second range. -/
theorem toNat_pairCost (hm : mode ≠ .badram) {ps : List Pattern} (h : RangeTable arch ps)
    {idx : ℕ} (hlt : idx + 1 < ps.length) : (pairCost mode ps idx).toNat = rise ps idx := by
  have hincr := List.pairwise_iff_getElem.mp h.increasing idx (idx + 1) (Nat.lt_of_succ_lt hlt)
    hlt (Nat.lt_succ_self idx)
  have hfirst := h.ordered _ (List.getElem_mem (Nat.lt_of_succ_lt hlt))
  rw [pairCost, rise, getD_of_lt hlt, getD_of_lt (Nat.lt_of_succ_lt hlt)]
  simp only [combiCost, combine, if_neg hm, if_pos hincr]
  split <;> bv_omega

theorem lastClosest_cheapestPair (hm : mode ≠ .badram) {ps : List Pattern}
    (h : RangeTable arch ps) (hlen : 2 ≤ ps.length) :
    ∃ idx, cheapestPair mode ps = some idx ∧ LastClosest ps idx := by
  obtain ⟨idx, hidx, hlt⟩ := exists_cheapestPair mode hlen
  refine ⟨idx, hidx, ?_⟩
  rcases cheapestPairLoop_last hidx with ⟨hnone, -⟩ | ⟨k, rfl, hk, -, hall⟩
  · exact absurd hnone (by simp)
  rw [Nat.zero_add]
  have hrise := fun {j : ℕ} (hj : j + 1 < ps.length) => toNat_pairCost hm h hj
  refine ⟨hk, fun j hj => ?_, fun j hkj hj => ?_⟩
  · rw [← hrise hk, ← hrise hj]
    exact BitVec.le_def.mp (hall j hj).1
  · rw [← hrise hk, ← hrise hj]
    exact BitVec.lt_def.mp ((hall j hj).2 hkj)

/-- Two neighbours, with what is in front of them and behind. -/
theorem exists_pair_split {ps : List Pattern} {idx : ℕ} (hlt : idx + 1 < ps.length) :
    ∃ front p q back, ps = front ++ p :: q :: back ∧ idx = front.length := by
  refine ⟨ps.take idx, ps[idx], ps[idx + 1], ps.drop (idx + 2), ?_, ?_⟩
  · rw [← List.drop_eq_getElem_cons hlt, ← List.drop_eq_getElem_cons (Nat.lt_of_succ_lt hlt),
      List.take_append_drop]
  · rw [List.length_take, Nat.min_eq_left (Nat.le_of_lt (Nat.lt_of_succ_lt hlt))]

section Pair

variable {front back : List Pattern} {p q : Pattern}

theorem removePair_split : removePair front.length (front ++ p :: q :: back) = front ++ back := by
  rw [removePair, List.take_left, ← List.drop_drop, List.drop_left]
  rfl

theorem take_split : (front ++ p :: q :: back).take (front.length + 1) = front ++ [p] := by
  simp [List.take_append]

/-- The entry that replaces two neighbours goes from the lower end of the first to the higher of
their upper ends. -/
theorem combinedPattern_split (hm : mode ≠ .badram) (hlt : p.addr < q.addr) :
    combinedPattern mode (front ++ p :: q :: back) front.length (front.length + 1) =
      ⟨p.addr, if p.mask > q.mask then p.mask else q.mask⟩ := by
  simp [combinedPattern, combine, hm, hlt]

theorem le_topEnd {ps : List Pattern} (hp : p ∈ ps) : p.mask.toNat ≤ topEnd ps := by
  induction ps with
  | nil => exact absurd hp List.not_mem_nil
  | cons r ps ih =>
    rcases List.mem_cons.mp hp with rfl | hp
    · exact Nat.le_max_left _ _
    · exact Nat.le_trans (ih hp) (Nat.le_max_right _ _)

theorem topEnd_lt_iff {ps : List Pattern} {n : ℕ} (hps : ps ≠ []) :
    topEnd ps < n ↔ ∀ r ∈ ps, r.mask.toNat < n := by
  constructor
  · exact fun h r hr => Nat.lt_of_le_of_lt (le_topEnd hr) h
  · intro h
    have hpos : 0 < n := by
      obtain ⟨r, hr⟩ := List.exists_mem_of_ne_nil ps hps
      exact Nat.lt_of_le_of_lt (Nat.zero_le _) (h r hr)
    clear hps
    induction ps with
    | nil => exact hpos
    | cons r ps ih =>
      rw [List.forall_mem_cons] at h
      exact Nat.max_lt.mpr ⟨h.1, ih h.2⟩

theorem dvd_topEnd {ps : List Pattern} (h : ∀ r ∈ ps, WordAligned arch r.mask) :
    arch.wordBytes ∣ topEnd ps := by
  induction ps with
  | nil => exact Nat.dvd_zero _
  | cons r ps ih =>
    rw [List.forall_mem_cons] at h
    change arch.wordBytes ∣ max r.mask.toNat (topEnd ps)
    rcases Nat.le_total r.mask.toNat (topEnd ps) with hle | hle
    · rw [Nat.max_eq_right hle]
      exact ih h.2
    · rw [Nat.max_eq_left hle]
      exact h.1

/-- **The forced merge** keeps the table a table of ranges, and adds the words between the highest
end up to the first of the two neighbours and the lower end of the second. -/
theorem rangeTable_mergeAt (hm : mode ≠ .badram)
    (h : RangeTable arch (front ++ p :: q :: back)) :
    RangeTable arch (mergeAt mode front.length (front ++ p :: q :: back)) ∧
      ∀ x, x ∈ recordedWords arch (mergeAt mode front.length (front ++ p :: q :: back)) ↔
        x ∈ recordedWords arch (front ++ p :: q :: back) ∨
          WordAligned arch x ∧ topEnd (front ++ [p]) < x.toNat ∧ x < q.addr := by
  obtain ⟨hincF, hincB, hincFB⟩ := List.pairwise_append.mp h.increasing
  obtain ⟨hincP, hincB⟩ := List.pairwise_cons.mp hincB
  obtain ⟨hincQ, hincB⟩ := List.pairwise_cons.mp hincB
  obtain ⟨hordP, hord⟩ := forall_mem_middle.mp h.ordered
  obtain ⟨hordQ, hordB⟩ := forall_mem_middle.mp hord
  obtain ⟨haddrP, haddr⟩ := forall_mem_middle.mp h.addr_aligned
  obtain ⟨hmaskP, hmask⟩ := forall_mem_middle.mp h.mask_aligned
  obtain ⟨hmaskQ, hmaskB⟩ := forall_mem_middle.mp hmask
  have hpq : p.addr < q.addr := hincP q List.mem_cons_self
  rw [mergeAt, removePair_split, combinedPattern_split hm hpq]
  have hrest : RangeTable arch (front ++ back) :=
    ⟨List.pairwise_append.mpr ⟨hincF, hincB, fun r hr s hs =>
      hincFB r hr s (List.mem_cons_of_mem p (List.mem_cons_of_mem q hs))⟩,
      hordB, (forall_mem_middle.mp haddr).2, hmaskB⟩
  constructor
  · refine rangeTable_insertSorted hm hrest (fun r hr => ?_) ?_ haddrP ?_
    · rcases List.mem_append.mp hr with hr | hr
      · exact BitVec.ne_of_lt (hincFB r hr p List.mem_cons_self)
      · exact (BitVec.ne_of_lt (hincP r (List.mem_cons_of_mem q hr))).symm
    · dsimp only
      split <;> bv_omega
    · dsimp only
      split
      · exact hmaskP
      · exact hmaskQ
  · intro x
    rw [mem_recordedWords_insertSorted hm, mem_recordedWords_middle]
    dsimp only
    constructor
    · rintro (⟨hx, hlo, hhi⟩ | ⟨hx, r, hr, hin⟩)
      · by_cases hold : x ∈ recordedWords arch (front ++ p :: q :: back)
        · exact .inl (mem_recordedWords_middle.mp hold)
        · -- A word no range held lies above every range up to the first neighbour.
          have hnot : ∀ r ∈ front ++ p :: q :: back, ¬(r.addr ≤ x ∧ x ≤ r.mask) :=
            fun r hr hin => hold ⟨hx, r, hr, hin⟩
          have hP := hnot p (by simp)
          have hQ := hnot q (by simp)
          refine .inr ⟨hx, (topEnd_lt_iff (by simp)).mpr fun r hr => ?_, ?_⟩
          · have hle : r.addr ≤ p.addr := by
              rcases List.mem_append.mp hr with hr | hr
              · exact BitVec.le_of_lt (hincFB r hr p List.mem_cons_self)
              · exact BitVec.le_of_eq (by rw [List.mem_singleton.mp hr])
            have hR := hnot r (by
              rcases List.mem_append.mp hr with hr | hr
              · exact List.mem_append_left _ hr
              · exact List.mem_append_right _ (by simp [List.mem_singleton.mp hr]))
            bv_omega
          · split at hhi <;> bv_omega
      · refine .inl ⟨hx, .inr ⟨r, ?_, hin⟩⟩
        exact (List.Sublist.refl front).append (List.sublist_cons_self q back) |>.subset hr
    · rintro (⟨hx, hin | ⟨r, hr, hin⟩⟩ | ⟨hx, htop, hlo⟩)
      · refine .inl ⟨hx, hin.1, ?_⟩
        split <;> bv_omega
      · rcases List.mem_append.mp hr with hr | hr
        · exact .inr ⟨hx, r, List.mem_append_left _ hr, hin⟩
        rcases List.mem_cons.mp hr with rfl | hr
        · refine .inl ⟨hx, by bv_omega, ?_⟩
          split <;> bv_omega
        · exact .inr ⟨hx, r, List.mem_append_right _ hr, hin⟩
      · have hP := (topEnd_lt_iff (by simp)).mp htop p (by simp)
        refine .inl ⟨hx, by bv_omega, ?_⟩
        split <;> bv_omega

/-- The words a merge adds were not recorded before. -/
theorem not_mem_recordedWords (h : RangeTable arch (front ++ p :: q :: back)) {x : BitVec 64}
    (htop : topEnd (front ++ [p]) < x.toNat) (hlo : x < q.addr) :
    x ∉ recordedWords arch (front ++ p :: q :: back) := by
  have hbelow := (topEnd_lt_iff (by simp)).mp htop
  obtain ⟨-, hincB, -⟩ := List.pairwise_append.mp h.increasing
  obtain ⟨hincQ, -⟩ := List.pairwise_cons.mp (List.pairwise_cons.mp hincB).2
  rintro ⟨-, r, hr, hin⟩
  rcases List.mem_append.mp hr with hr | hr
  · have hlt := hbelow r (List.mem_append_left _ hr)
    bv_omega
  rcases List.mem_cons.mp hr with rfl | hr
  · have hlt := hbelow r (by simp)
    bv_omega
  rcases List.mem_cons.mp hr with rfl | hr
  · bv_omega
  · have hlt := hincQ r hr
    bv_omega

end Pair

/-- The number of words between two words. -/
theorem ncard_words_between {t u : ℕ} (ht : arch.wordBytes ∣ t) (hu : arch.wordBytes ∣ u)
    (hlt : u < 2 ^ 64) :
    {x : BitVec 64 | WordAligned arch x ∧ t < x.toNat ∧ x.toNat < u}.ncard =
      (u - (t + arch.wordBytes)) / arch.wordBytes := by
  obtain ⟨k, rfl⟩ := ht
  obtain ⟨l, rfl⟩ := hu
  have hpos := arch.wordBytes_pos
  have himage : {x : BitVec 64 | WordAligned arch x ∧ arch.wordBytes * k < x.toNat ∧
      x.toNat < arch.wordBytes * l} =
      (fun n => BitVec.ofNat 64 (arch.wordBytes * n)) '' (Finset.Ioo k l : Set ℕ) := by
    ext x
    simp only [Set.mem_ofPred_eq, Set.mem_image, Finset.coe_Ioo, Set.mem_Ioo]
    constructor
    · rintro ⟨⟨n, hn⟩, hlo, hhi⟩
      rw [hn] at hlo hhi
      refine ⟨n, ⟨Nat.lt_of_mul_lt_mul_left hlo, Nat.lt_of_mul_lt_mul_left hhi⟩, ?_⟩
      rw [← hn, BitVec.ofNat_toNat, BitVec.setWidth_eq]
    · rintro ⟨n, ⟨hlo, hhi⟩, rfl⟩
      have hlo' := Nat.mul_lt_mul_of_pos_left hlo hpos
      have hhi' := Nat.mul_lt_mul_of_pos_left hhi hpos
      have hval : (BitVec.ofNat 64 (arch.wordBytes * n)).toNat = arch.wordBytes * n := by
        rw [BitVec.toNat_ofNat, Nat.mod_eq_of_lt (Nat.lt_trans hhi' hlt)]
      rw [WordAligned, hval]
      exact ⟨Nat.dvd_mul_right _ _, hlo', hhi'⟩
  rw [himage, Set.InjOn.ncard_image, Set.ncard_coe_finset, Nat.card_Ioo, ← Nat.mul_succ,
    ← Nat.mul_sub, Nat.mul_div_cancel_left _ hpos, Nat.succ_eq_add_one, Nat.sub_add_eq]
  intro m hm n hn heq
  rw [Finset.coe_Ioo, Set.mem_Ioo] at hm hn
  have hm' := Nat.mul_lt_mul_of_pos_left hm.2 hpos
  have hn' := Nat.mul_lt_mul_of_pos_left hn.2 hpos
  have htoNat := congrArg BitVec.toNat heq
  simp only [BitVec.toNat_ofNat] at htoNat
  rw [Nat.mod_eq_of_lt (Nat.lt_trans hm' hlt), Nat.mod_eq_of_lt (Nat.lt_trans hn' hlt)] at htoNat
  exact Nat.eq_of_mul_eq_mul_left hpos htoNat

/-- A merge adds as many words as fit in the gap between the two neighbours. -/
theorem mergeAt_added (hm : mode ≠ .badram) {ps : List Pattern} (h : RangeTable arch ps) {idx : ℕ}
    (hlt : idx + 1 < ps.length) :
    RangeTable arch (mergeAt mode idx ps) ∧
      recordedWords arch ps ⊆ recordedWords arch (mergeAt mode idx ps) ∧
      arch.wordBytes * (recordedWords arch (mergeAt mode idx ps) \ recordedWords arch ps).ncard =
        gap arch ps idx := by
  obtain ⟨front, p, q, back, rfl, rfl⟩ := exists_pair_split hlt
  obtain ⟨htable, hmem⟩ := rangeTable_mergeAt hm h
  have hsecond : (front ++ p :: q :: back).getD (front.length + 1) ⟨0#64, 0#64⟩ = q := by simp
  have htopDvd : arch.wordBytes ∣ topEnd (front ++ [p]) := by
    refine dvd_topEnd fun r hr => h.mask_aligned r ?_
    rcases List.mem_append.mp hr with hr | hr
    · exact List.mem_append_left _ hr
    · exact List.mem_append_right _ (by simp [List.mem_singleton.mp hr])
  have haddrDvd : arch.wordBytes ∣ q.addr.toNat := h.addr_aligned q (by simp)
  have hadded : recordedWords arch (mergeAt mode front.length (front ++ p :: q :: back)) \
      recordedWords arch (front ++ p :: q :: back) =
      {x | WordAligned arch x ∧ topEnd (front ++ [p]) < x.toNat ∧ x.toNat < q.addr.toNat} := by
    ext x
    rw [Set.mem_sdiff, hmem]
    constructor
    · rintro ⟨hold | hnew, hnot⟩
      · exact absurd hold hnot
      · exact hnew
    · exact fun hnew => ⟨.inr hnew, not_mem_recordedWords h hnew.2.1 hnew.2.2⟩
  refine ⟨htable, fun x hx => (hmem x).mpr (.inl hx), ?_⟩
  rw [hadded, ncard_words_between htopDvd haddrDvd q.addr.isLt, gap, hsecond, take_split]
  exact Nat.mul_div_cancel' (Nat.dvd_sub haddrDvd (Nat.dvd_add htopDvd (Nat.dvd_refl _)))

/-! ### Runs -/

/-- The call makes a new entry, and the table is full. The entry is made first and then two
neighbours are joined, of which it may be one. -/
def ForcesMerge (arch : Arch) (mode : ErrorMode) (a : BitVec 64) (patterns : List Pattern) :
    Prop :=
  (∀ q ∈ patterns, PassedOver arch mode a q) ∧ maxPatterns ≤ patterns.length

instance (a : BitVec 64) (patterns : List Pattern) :
    Decidable (ForcesMerge arch mode a patterns) :=
  inferInstanceAs (Decidable (_ ∧ _))

/-- A call that forces no merge records its word and no other. -/
theorem recordedWords_badramInsert (hm : mode ≠ .badram) {page offset : BitVec arch.bits}
    {ps : List Pattern} (h : RangeTable arch ps) (ha : WordAligned arch (insertAddr page offset))
    (hforce : ¬ForcesMerge arch mode (insertAddr page offset) ps) :
    RangeTable arch (badramInsert mode page offset ps).2 ∧
      recordedWords arch (badramInsert mode page offset ps).2 =
        insert (insertAddr page offset) (recordedWords arch ps) := by
  rw [badramInsert]
  set a := insertAddr page offset
  dsimp only
  rcases absorb_cases arch mode a ps with ⟨hnone, hall⟩ | ⟨front, p, back, rfl, hfront, hcase⟩
  · have hlen : ps.length < maxPatterns := Nat.not_le.mp fun hle => hforce ⟨hall, hle⟩
    rw [hnone]
    dsimp only
    rw [if_neg (by rw [(insertSorted_spec _ _ _).1]; exact Nat.not_lt.mpr hlen)]
    exact rangeTable_new hm h ha hall
  rcases hcase with ⟨hzero, habsorb⟩ | ⟨hword, habsorb⟩
  · rw [habsorb]
    have hin := (absorbCost_eq_zero_iff hm (h.ordered p (by simp)) a).mp hzero
    have hmem : a ∈ recordedWords arch (front ++ p :: back) := ⟨ha, p, by simp, hin⟩
    exact ⟨h, (Set.insert_eq_of_mem hmem).symm⟩
  · rw [habsorb]
    exact rangeTable_grow hm h ha hfront hword

/-- A call that forces a merge joins the last two neighbours whose upper ends are closest. -/
theorem badramInsert_eq_mergeAt (hm : mode ≠ .badram) {page offset : BitVec arch.bits}
    {ps : List Pattern} (h : RangeTable arch ps) (ha : WordAligned arch (insertAddr page offset))
    (hforce : ForcesMerge arch mode (insertAddr page offset) ps) :
    ∃ idx, LastClosest (withNew arch mode (insertAddr page offset) ps) idx ∧
      (badramInsert mode page offset ps).2 =
        mergeAt mode idx (withNew arch mode (insertAddr page offset) ps) := by
  rw [badramInsert]
  set a := insertAddr page offset
  dsimp only
  obtain ⟨hall, hfull⟩ := hforce
  have hnone : absorb arch mode (newPattern arch mode a) ps = none := by
    rcases absorb_cases arch mode a ps with ⟨hnone, -⟩ | ⟨front, p, back, rfl, -, hcase⟩
    · exact hnone
    · have hpassed := hall p (by simp)
      exact (hcase.elim (fun hz => hpassed.1 hz.1) fun hw => hpassed.2 hw.1).elim
  have hlen : (withNew arch mode a ps).length = ps.length + 1 := length_withNew a ps
  have hmax : 2 ≤ maxPatterns := by decide
  obtain ⟨idx, hidx, hlast⟩ := lastClosest_cheapestPair hm (rangeTable_new hm h ha hall).1
    (by omega)
  refine ⟨idx, hlast, ?_⟩
  have hmerge : mergeCheapest mode (withNew arch mode a ps) =
      mergeAt mode idx (withNew arch mode a ps) := by rw [mergeCheapest, hidx, mergeAt]
  rw [hnone, ← hmerge]
  exact congrArg Prod.snd (if_pos (show (withNew arch mode a ps).length > maxPatterns by omega))

theorem rangeTable_badramInsert (hm : mode ≠ .badram) {page offset : BitVec arch.bits}
    {ps : List Pattern} (h : RangeTable arch ps) (ha : WordAligned arch (insertAddr page offset)) :
    RangeTable arch (badramInsert mode page offset ps).2 := by
  by_cases hforce : ForcesMerge arch mode (insertAddr page offset) ps
  · obtain ⟨idx, hlast, heq⟩ := badramInsert_eq_mergeAt hm h ha hforce
    rw [heq]
    exact (mergeAt_added hm (rangeTable_new hm h ha hforce.1).1 hlast.lt).1
  · exact (recordedWords_badramInsert hm h ha hforce).1

theorem rangeTable_badramRun (hm : mode ≠ .badram)
    {calls : List (BitVec arch.bits × BitVec arch.bits)}
    (hcalls : ∀ c ∈ calls, WordAligned arch (insertAddr c.1 c.2)) :
    RangeTable arch (badramRun mode calls) := by
  induction calls using List.reverseRecOn with
  | nil => exact rangeTable_nil
  | append_singleton calls c ih =>
    rw [badramRun, List.foldl_append, List.foldl_cons, List.foldl_nil]
    exact rangeTable_badramInsert hm (ih fun d hd => hcalls d (List.mem_append_left _ hd))
      (hcalls c (by simp))

/-- The call forces a merge of two neighbours with a gap between them, so that words are recorded
from now on which have not been reported. -/
def Spills (arch : Arch) (mode : ErrorMode) (a : BitVec 64) (patterns : List Pattern) : Prop :=
  ForcesMerge arch mode a patterns ∧
    ∃ idx, LastClosest (withNew arch mode a patterns) idx ∧
      0 < gap arch (withNew arch mode a patterns) idx

theorem insertedWords_concat (calls : List (BitVec arch.bits × BitVec arch.bits))
    (c : BitVec arch.bits × BitVec arch.bits) :
    insertedWords (calls ++ [c]) = insert (insertAddr c.1 c.2) (insertedWords calls) := by
  ext x
  simp only [insertedWords, Set.mem_ofPred_eq, List.mem_append, List.mem_singleton,
    Set.mem_insert_iff]
  constructor
  · rintro ⟨d, hd | rfl, rfl⟩
    · exact .inr ⟨d, hd, rfl⟩
    · exact .inl rfl
  · rintro (rfl | ⟨d, hd, rfl⟩)
    · exact ⟨c, .inr rfl, rfl⟩
    · exact ⟨d, .inl hd, rfl⟩

/-- **Step lemma.** A call records its word and no other exactly if it does not spill. -/
theorem recordedWords_step_iff (hm : mode ≠ .badram) {page offset : BitVec arch.bits}
    {ps : List Pattern} (h : RangeTable arch ps) (ha : WordAligned arch (insertAddr page offset)) :
    recordedWords arch (badramInsert mode page offset ps).2 =
        insert (insertAddr page offset) (recordedWords arch ps) ↔
      ¬Spills arch mode (insertAddr page offset) ps := by
  by_cases hforce : ForcesMerge arch mode (insertAddr page offset) ps
  · obtain ⟨idx, hlast, heq⟩ := badramInsert_eq_mergeAt hm h ha hforce
    obtain ⟨hnew, hwords⟩ := rangeTable_new hm h ha hforce.1
    obtain ⟨-, hsub, hadded⟩ := mergeAt_added hm hnew hlast.lt
    have hspills : Spills arch mode (insertAddr page offset) ps ↔
        0 < gap arch (withNew arch mode (insertAddr page offset) ps) idx :=
      ⟨fun ⟨_, j, hj, hgap⟩ => hj.unique hlast ▸ hgap, fun hgap => ⟨hforce, idx, hlast, hgap⟩⟩
    have : Finite (BitVec 64) :=
      Finite.of_injective BitVec.toFin fun x y hxy => BitVec.eq_of_toFin_eq hxy
    rw [heq, ← hwords, hspills, ← hadded, Nat.not_lt, Nat.le_zero, Nat.mul_eq_zero,
      or_iff_right arch.wordBytes_pos.ne', Set.ncard_eq_zero (Set.toFinite _), Set.sdiff_eq_empty]
    exact ⟨fun hall => hall.le, fun hle => hle.antisymm hsub⟩
  · exact iff_of_true (recordedWords_badramInsert hm h ha hforce).2 fun hspills =>
      hforce hspills.1

/-- **Exact regions.** After every call of a run the recorded ranges hold exactly the words
inserted so far, exactly if no call forces a merge of two neighbours with a gap between them.

A table of 20 entries may be full although fewer regions would do, because ranges that have come
to touch each other are never joined. The merge that is then forced need not join these two, as it
goes by the upper ends. -/
theorem recordedWords_badramRun_iff (hmode : mode = .memmap ∨ mode = .pages)
    (calls : List (BitVec arch.bits × BitVec arch.bits))
    (hcalls : ∀ c ∈ calls, WordAligned arch (insertAddr c.1 c.2)) :
    (∀ before after, calls = before ++ after →
        recordedWords arch (badramRun mode before) = insertedWords before) ↔
      ∀ before c after, calls = before ++ c :: after →
        ¬Spills arch mode (insertAddr c.1 c.2) (badramRun mode before) := by
  have hm : mode ≠ .badram := by rcases hmode with rfl | rfl <;> decide
  refine Executions.forall_prefix_foldl_iff (P := fun c => Spills arch mode (insertAddr c.1 c.2))
    (f := fun ps (c : BitVec arch.bits × BitVec arch.bits) => (badramInsert mode c.1 c.2 ps).2)
    (G := fun past ps => recordedWords arch ps = insertedWords past)
    (I := fun past ps => RangeTable arch ps ∧ recordedWords arch ps = insertedWords past)
    (fun _ ps h => h.2) (fun past c hc ps h hnot => ?_) (fun past c hc ps h hspills heq => ?_)
    ⟨rangeTable_nil, by simp [recordedWords, insertedWords, badramInit]⟩
  · refine ⟨rangeTable_badramInsert hm h.1 (hcalls c hc), ?_⟩
    rw [insertedWords_concat, ← h.2]
    exact (recordedWords_step_iff hm h.1 (hcalls c hc)).mpr hnot
  · rw [insertedWords_concat, ← h.2] at heq
    exact (recordedWords_step_iff hm h.1 (hcalls c hc)).mp heq hspills

theorem recordedWords_badramRun_two :
    (∀ before after, [(0#64, 0#64), (0#64, 8#64)] = before ++ after →
        recordedWords .b64 (@badramRun .b64 .memmap before) =
          @insertedWords .b64 before) ↔
      ∀ before c after, [(0#64, 0#64), (0#64, 8#64)] = before ++ c :: after →
        ¬Spills .b64 .memmap (@insertAddr .b64 c.1 c.2)
          (@badramRun .b64 .memmap before) :=
  @recordedWords_badramRun_iff .b64 _ (.inl rfl) _
    (List.forall_mem_cons.mpr ⟨by decide, List.forall_mem_singleton.mpr (by decide)⟩)

/-- The number of maximal runs of contiguous words among those inserted. -/
def numRuns (calls : List (BitVec arch.bits × BitVec arch.bits)) : ℕ :=
  let words := (calls.map fun c => (insertAddr c.1 c.2).toNat).dedup
  (words.filter fun x => words.all fun y => y + arch.wordBytes ≠ x).length

/-- Calls that fill the table: two adjacent ranges, the second one of three words, two single words
with one word between them, and sixteen words far from each other. -/
def sparseCalls : List (BitVec 64 × BitVec 64) :=
  [(0, 0), (0, 0x10), (0, 0x18), (0, 0x20), (0, 8), (0, 0x100), (0, 0x110)] ++
    (List.range 16).map fun k => (BitVec.ofNat 64 (k + 1), 0x800)

theorem aligned_of_all {calls : List (BitVec arch.bits × BitVec arch.bits)}
    (h : (calls.all fun c => WordAligned arch (insertAddr c.1 c.2)) = true) :
    ∀ c ∈ calls, WordAligned arch (insertAddr c.1 c.2) :=
  fun c hc => of_decide_eq_true (List.all_eq_true.mp h c hc)

/-- One more word far from all others makes twenty runs, but twenty-one ranges, and the word between
the two single words is recorded. -/
theorem recordedWords_ne_insertedWords :
    ¬∀ (arch : Arch) (mode : ErrorMode) (calls : List (BitVec arch.bits × BitVec arch.bits)),
      mode = .memmap ∨ mode = .pages → (∀ c ∈ calls, WordAligned arch (insertAddr c.1 c.2)) →
      (∀ before after, calls = before ++ after → numRuns before ≤ 20) →
      ∀ before after, calls = before ++ after →
        recordedWords arch (badramRun mode before) = insertedWords before := by
  intro h
  set calls : List (BitVec Arch.b64.bits × BitVec Arch.b64.bits) := sparseCalls ++ [(17, 0x800)]
    with hcalls
  have hruns : ((List.range 25).all fun n => numRuns (calls.take n) ≤ 20) = true := by
    decide
  have hexact := h .b64 .memmap calls (.inl rfl) (aligned_of_all (by decide))
    (fun before after heq => ?_) calls [] (List.append_nil _).symm
  · have hrecorded : (0x108#64) ∈ recordedWords .b64 (@badramRun .b64 .memmap calls) :=
      ⟨by decide, ⟨0x100, 0x110⟩, by decide, by decide, by decide⟩
    have hfresh : (calls.all fun c => insertAddr c.1 c.2 ≠ 0x108#64) = true := by decide
    rw [hexact] at hrecorded
    obtain ⟨c, hc, heq⟩ := hrecorded
    exact of_decide_eq_true (List.all_eq_true.mp hfresh c hc) heq
  · have hlen : before.length < 25 := by
      have hall : calls.length = 24 := by decide
      rw [heq, List.length_append] at hall
      omega
    have htake : calls.take before.length = before := by rw [heq, List.take_left]
    have hbound := List.all_eq_true.mp hruns before.length (List.mem_range.mpr hlen)
    rw [htake] at hbound
    exact of_decide_eq_true hbound

/-- **Cheapest merge.** The merge a call forces adds the fewest words, among all pairs of
neighbours, exactly if the last pair whose upper ends are closest has the smallest gap.

The words that a merge adds are counted as a set: those recorded behind the merge and not in front
of it, where the new word has an entry of its own already. The table is that of any run in the
mode, so its ranges may overlap. -/
theorem forcedMerge_fewest_iff (hmode : mode = .memmap ∨ mode = .pages)
    (calls : List (BitVec arch.bits × BitVec arch.bits))
    (hcalls : ∀ c ∈ calls, WordAligned arch (insertAddr c.1 c.2)) (page offset : BitVec arch.bits)
    (ha : WordAligned arch (insertAddr page offset))
    (hforce : ForcesMerge arch mode (insertAddr page offset) (badramRun mode calls)) :
    (∀ j, j + 1 < (withNew arch mode (insertAddr page offset) (badramRun mode calls)).length →
        (recordedWords arch (badramInsert mode page offset (badramRun mode calls)).2 \
          recordedWords arch
            (withNew arch mode (insertAddr page offset) (badramRun mode calls))).ncard ≤
        (recordedWords arch
            (mergeAt mode j (withNew arch mode (insertAddr page offset) (badramRun mode calls))) \
          recordedWords arch
            (withNew arch mode (insertAddr page offset) (badramRun mode calls))).ncard) ↔
      ∀ idx, LastClosest (withNew arch mode (insertAddr page offset) (badramRun mode calls)) idx →
        ∀ j, j + 1 < (withNew arch mode (insertAddr page offset) (badramRun mode calls)).length →
          gap arch (withNew arch mode (insertAddr page offset) (badramRun mode calls)) idx ≤
            gap arch (withNew arch mode (insertAddr page offset) (badramRun mode calls)) j := by
  have hm : mode ≠ .badram := by rcases hmode with rfl | rfl <;> decide
  have h := rangeTable_badramRun hm hcalls
  obtain ⟨idx, hlast, heq⟩ := badramInsert_eq_mergeAt hm h ha hforce
  have hnew := (rangeTable_new hm h ha hforce.1).1
  rw [heq]
  set ps := withNew arch mode (insertAddr page offset) (badramRun mode calls)
  have hfewer : ∀ j, j + 1 < ps.length →
      ((recordedWords arch (mergeAt mode idx ps) \ recordedWords arch ps).ncard ≤
          (recordedWords arch (mergeAt mode j ps) \ recordedWords arch ps).ncard ↔
        gap arch ps idx ≤ gap arch ps j) := by
    intro j hj
    rw [← (mergeAt_added hm hnew hlast.lt).2.2, ← (mergeAt_added hm hnew hj).2.2]
    exact (Nat.mul_le_mul_left_iff arch.wordBytes_pos).symm
  constructor
  · intro hall i hi j hj
    rw [hi.unique hlast]
    exact (hfewer j hj).mp (hall j hj)
  · exact fun hall j hj => (hfewer j hj).mpr (hall idx hlast j hj)

/-- The table that one more word far from all others makes of the full one. -/
def sparseTable : List Pattern :=
  withNew .b64 .pages (@insertAddr .b64 17#64 0x800#64)
    (@badramRun .b64 .pages sparseCalls)

theorem forcedMerge_fewest_sparse :
    (∀ j, j + 1 < sparseTable.length →
        (recordedWords .b64 (@badramInsert .b64 .pages 17#64 0x800#64
            (@badramRun .b64 .pages sparseCalls)).2 \
          recordedWords .b64 sparseTable).ncard ≤
        (recordedWords .b64 (mergeAt .pages j sparseTable) \
          recordedWords .b64 sparseTable).ncard) ↔
      ∀ idx, LastClosest sparseTable idx → ∀ j, j + 1 < sparseTable.length →
        gap .b64 sparseTable idx ≤ gap .b64 sparseTable j :=
  @forcedMerge_fewest_iff .b64 _ (.inr rfl) sparseCalls (aligned_of_all (by decide))
    17#64 0x800#64 (by decide) (by decide)

/-- There the merge adds the word between the two single words, although joining the two adjacent
ranges would add none. -/
theorem forcedMerge_not_fewest :
    ¬∀ (arch : Arch) (mode : ErrorMode) (calls : List (BitVec arch.bits × BitVec arch.bits))
        (page offset : BitVec arch.bits),
      mode = .memmap ∨ mode = .pages → (∀ c ∈ calls, WordAligned arch (insertAddr c.1 c.2)) →
      WordAligned arch (insertAddr page offset) →
      ForcesMerge arch mode (insertAddr page offset) (badramRun mode calls) →
      ∀ j, j + 1 < (withNew arch mode (insertAddr page offset) (badramRun mode calls)).length →
        (recordedWords arch (badramInsert mode page offset (badramRun mode calls)).2 \
          recordedWords arch
            (withNew arch mode (insertAddr page offset) (badramRun mode calls))).ncard ≤
        (recordedWords arch
            (mergeAt mode j (withNew arch mode (insertAddr page offset) (badramRun mode calls))) \
          recordedWords arch
            (withNew arch mode (insertAddr page offset) (badramRun mode calls))).ncard := by
  intro h
  have hcalls := @aligned_of_all .b64 sparseCalls (by decide)
  have hforce : ForcesMerge .b64 .pages (@insertAddr .b64 17#64 0x800#64)
      (@badramRun .b64 .pages sparseCalls) := by decide
  have hle := h .b64 .pages sparseCalls 17#64 0x800#64 (.inr rfl) hcalls (by decide) hforce 0
    (by decide)
  have hmerged : (@badramInsert .b64 .pages 17#64 0x800#64
      (@badramRun .b64 .pages sparseCalls)).2 = mergeAt .pages 2 sparseTable := by
    decide
  have htable : RangeTable .b64 sparseTable :=
    (rangeTable_new (by decide) (rangeTable_badramRun (by decide) hcalls) (by decide) hforce.1).1
  have hadded := fun idx (hlt : idx + 1 < sparseTable.length) =>
    (mergeAt_added (show ErrorMode.pages ≠ .badram by decide) htable hlt).2.2
  have hmade := hadded 2 (by decide)
  have hbest := hadded 0 (by decide)
  rw [hmerged] at hle
  have hgaps : gap .b64 sparseTable 0 < gap .b64 sparseTable 2 := by decide
  rw [← hmade, ← hbest] at hgaps
  exact absurd (Nat.lt_of_mul_lt_mul_left hgaps) (Nat.not_lt.mpr hle)

end Memtest
