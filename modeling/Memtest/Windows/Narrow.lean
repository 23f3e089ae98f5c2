import Memtest.Windows.VmMap

/-!
# Under which label an address goes

`smp_narrow_to_proximity_domain` passes over the ranges that end before the given addresses or begin
behind them, and takes the first of the others. If the given addresses begin before that range, what
is before it is returned under its label. The ranges are not sorted, so that a later one may be the
owner of some of these addresses.
-/

namespace Memtest

variable {ranges : List MemoryAffinity} {r q : MemoryAffinity} {start stop a : ℕ} {n : Narrowed}

namespace MemoryAffinity

/-- The address belongs to the range. -/
def Contains (r : MemoryAffinity) (a : ℕ) : Prop := r.start ≤ a ∧ a < r.stop

/-- The code passes over the range when it is asked for these addresses. -/
def passedOver (start stop : ℕ) (r : MemoryAffinity) : Bool :=
  decide (r.start ≤ start ∧ r.stop ≤ start ∨ start < r.start ∧ stop < r.start)

/-- What the code returns for the first range that it does not pass over. -/
def narrow (start stop : ℕ) (r : MemoryAffinity) : Narrowed :=
  ⟨r.proximityDomainIdx, start, if start < r.start then r.start else min stop r.stop⟩

end MemoryAffinity

theorem smpNarrowToProximityDomain_eq (ranges : List MemoryAffinity) (start stop : ℕ) :
    smpNarrowToProximityDomain ranges start stop =
      (ranges.find? fun r => !r.passedOver start stop).map (MemoryAffinity.narrow start stop) := by
  induction ranges with
  | nil => rfl
  | cons r ranges ih =>
    rw [smpNarrowToProximityDomain, List.find?_cons]
    by_cases hpass : r.passedOver start stop = true
    · rw [hpass, Bool.not_true, ← ih]
      have hpass := of_decide_eq_true hpass
      by_cases hle : start ≥ r.start
      · rw [if_pos hle, if_neg (by omega)]
      · rw [if_neg hle, if_pos (by omega)]
    · rw [Bool.not_eq_true] at hpass
      rw [hpass, Bool.not_false, Option.map_some, MemoryAffinity.narrow]
      have hpass := of_decide_eq_false hpass
      by_cases hle : start ≥ r.start
      · rw [if_pos hle, if_pos (show start < r.stop by omega), if_neg (Nat.not_lt.mpr hle)]
        by_cases hstop : stop ≤ r.stop
        · rw [if_pos hstop, Nat.min_eq_left hstop]
        · rw [if_neg hstop, Nat.min_eq_right (by omega)]
      · rw [if_neg hle, if_neg (show ¬stop < r.start by omega), if_pos (by omega)]

/-- What is returned starts where the given addresses do, is not empty and goes no further, and
each of its addresses that belongs to a range belongs to one with the label that is returned. An
address that belongs to no range may go under any label. -/
def Labelled (ranges : List MemoryAffinity) (start stop : ℕ) (n : Narrowed) : Prop :=
  n.newStart = start ∧ start < n.newEnd ∧ n.newEnd ≤ stop ∧
    ∀ a, n.newStart ≤ a → a < n.newEnd → (∃ r ∈ ranges, r.Contains a) →
      ∃ r ∈ ranges, r.Contains a ∧ r.proximityDomainIdx = n.proximityDomainIdx

/-- If the first range that is not passed over begins behind the start of the addresses, then
those in front of it belong to no range of another domain. The first range is the first one of the
table, which need not be the lowest. -/
def NoOwnerInFront (ranges : List MemoryAffinity) (start stop : ℕ) : Prop :=
  ∀ r, (ranges.find? fun r => !r.passedOver start stop) = some r →
    ∀ q ∈ ranges, ∀ a, start ≤ a → a < r.start → q.Contains a →
      q.proximityDomainIdx = r.proximityDomainIdx

/-- The bounds are right for any table. -/
theorem narrow_bounds (hlt : start < stop)
    (hr : (ranges.find? fun r => !r.passedOver start stop) = some r) :
    (r.narrow start stop).newStart = start ∧ start < (r.narrow start stop).newEnd ∧
      (r.narrow start stop).newEnd ≤ stop := by
  have hpass := List.find?_some hr
  rw [Bool.not_eq_true', MemoryAffinity.passedOver, decide_eq_false_iff_not] at hpass
  unfold MemoryAffinity.narrow
  dsimp only
  split_ifs <;> omega

/-- **Labels.** Every piece is labelled right if and only if nothing in front of the range that is
taken is owned by another domain.

The ranges are pairwise disjoint and otherwise arbitrary: they may have gaps, be empty and stand
in any order. Where the function returns 0 there is no piece, and nothing is said of its label. -/
theorem labelled_iff_noOwnerInFront
    (hdisjoint : ranges.Pairwise fun r q => ∀ a, ¬(r.Contains a ∧ q.Contains a))
    (hlt : start < stop) :
    (∀ n, smpNarrowToProximityDomain ranges start stop = some n → Labelled ranges start stop n) ↔
      NoOwnerInFront ranges start stop := by
  rw [smpNarrowToProximityDomain_eq]
  have hunique : ∀ r ∈ ranges, ∀ q ∈ ranges, ∀ a, r.Contains a → q.Contains a → r = q := by
    intro r hr q hq a hra hqa
    by_contra hne
    rcases List.pairwise_iff_getElem.mp hdisjoint with h
    obtain ⟨i, hi, rfl⟩ := List.getElem_of_mem hr
    obtain ⟨j, hj, rfl⟩ := List.getElem_of_mem hq
    rcases Nat.lt_trichotomy i j with hij | rfl | hji
    · exact h i j hi hj hij a ⟨hra, hqa⟩
    · exact hne rfl
    · exact h j i hj hi hji a ⟨hqa, hra⟩
  constructor
  · intro h r hr q hq a hlo hhi hqa
    obtain ⟨-, -, -, hlabel⟩ := h (r.narrow start stop) (by rw [hr]; rfl)
    have hend : (r.narrow start stop).newEnd = r.start := if_pos (by omega)
    obtain ⟨q', hq', hqa', hidx⟩ := hlabel a hlo (by omega) ⟨q, hq, hqa⟩
    rw [hunique q hq q' hq' a hqa hqa']
    exact hidx
  · intro h n hn
    obtain ⟨r, hr, rfl⟩ := Option.map_eq_some_iff.mp hn
    obtain ⟨hstart, hlo, hhi⟩ := narrow_bounds hlt hr
    refine ⟨hstart, hlo, hhi, ?_⟩
    rintro a hsa hae ⟨q, hq, hqa⟩
    rw [hstart] at hsa
    by_cases hfront : a < r.start
    · exact ⟨q, hq, hqa, h r hr q hq a hsa hfront hqa⟩
    · -- the address is one of the range itself
      refine ⟨r, List.mem_of_find?_eq_some hr, ⟨Nat.not_lt.mp hfront, ?_⟩, rfl⟩
      unfold MemoryAffinity.narrow at hae
      dsimp only at hae
      split_ifs at hae <;> omega

/-- Two ranges, the upper one first. -/
def upperFirst : List MemoryAffinity := [⟨0, 2 ^ 32, 2 ^ 33⟩, ⟨1, 0, 2 ^ 32⟩]

theorem labelled_upperFirst :
    smpNarrowToProximityDomain upperFirst (2 ^ 32) (2 ^ 33) = some ⟨0, 2 ^ 32, 2 ^ 33⟩ ∧
      Labelled upperFirst (2 ^ 32) (2 ^ 33) ⟨0, 2 ^ 32, 2 ^ 33⟩ := by
  have hdisjoint : upperFirst.Pairwise fun r q => ∀ a, ¬(r.Contains a ∧ q.Contains a) :=
    List.pairwise_pair.mpr fun a h => absurd h.1.1 (Nat.not_le.mpr h.2.2)
  have hfront : NoOwnerInFront upperFirst (2 ^ 32) (2 ^ 33) := by
    intro r hr q hq a hlo hhi
    have hsome : some (⟨0, 2 ^ 32, 2 ^ 33⟩ : MemoryAffinity) = some r := hr
    obtain rfl := Option.some.inj hsome
    exact absurd hlo (Nat.not_le.mpr hhi)
  exact ⟨by decide, (labelled_iff_noOwnerInFront hdisjoint (by decide)).mpr hfront _ (by decide)⟩

/-- The addresses of the lower range go under the label of the upper one. -/
theorem mislabelled_upperFirst :
    (upperFirst.Pairwise fun r q => ∀ a, ¬(r.Contains a ∧ q.Contains a)) ∧
      smpNarrowToProximityDomain upperFirst 0 (2 ^ 33) = some ⟨0, 0, 2 ^ 32⟩ ∧
      ¬Labelled upperFirst 0 (2 ^ 33) ⟨0, 0, 2 ^ 32⟩ := by
  refine ⟨List.pairwise_pair.mpr fun a h => absurd h.1.1 (Nat.not_le.mpr h.2.2), by decide, ?_⟩
  rintro ⟨-, -, -, h⟩
  obtain ⟨r, hr, hra, hidx⟩ := h 0 le_rfl (by decide)
    ⟨⟨1, 0, 2 ^ 32⟩, by decide, ⟨le_rfl, by decide⟩⟩
  simp only [upperFirst, List.mem_cons, List.not_mem_nil, or_false] at hr
  rcases hr with rfl | rfl
  · exact absurd hra.1 (by decide)
  · exact absurd hidx (by decide)

end Memtest
