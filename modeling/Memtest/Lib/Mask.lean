import Mathlib.Data.Finset.Card
import Mathlib.Data.Set.Basic

/-!
# Masked comparison of bit vectors

A pair of an address and a mask stands for the set of words that agree with the address wherever
the mask has a one. This file develops that reading for words of any width: the set `agree a m`,
how it grows when the mask loses bits, and the set `zeroBits m` of positions the mask leaves open,
whose size decides whether a mask has lost any bit.
-/

namespace BitMask

variable {w : ℕ}

/-- The words that agree with `a` on every bit that is set in the mask `m`. -/
def agree (a m : BitVec w) : Set (BitVec w) := {x | x &&& m = a &&& m}

theorem mem_agree {a m x : BitVec w} : x ∈ agree a m ↔ x &&& m = a &&& m := Iff.rfl

/-- Agreement is bitwise: the two words have the same bit wherever the mask has a one. -/
theorem mem_agree_iff_getLsbD {a m x : BitVec w} :
    x ∈ agree a m ↔ ∀ i < w, m.getLsbD i = true → x.getLsbD i = a.getLsbD i := by
  rw [mem_agree]
  constructor
  · intro h i _ hm
    have hi := congrArg (fun v => v.getLsbD i) h
    simpa [hm] using hi
  · intro h
    refine BitVec.eq_of_getLsbD_eq fun i hi => ?_
    rw [BitVec.getLsbD_and, BitVec.getLsbD_and]
    rcases hm : m.getLsbD i with _ | _
    · simp
    · simp [h i hi hm]

/-- The bits of the address outside the mask do not matter. -/
theorem agree_and_mask (a m : BitVec w) : agree (a &&& m) m = agree a m := by
  ext x
  rw [mem_agree, mem_agree, BitVec.and_assoc, BitVec.and_self]

/-- A mask that keeps fewer bits, on an address equal to the old one on those bits, accepts more
words. -/
theorem agree_subset {a b m m' : BitVec w}
    (h : ∀ i < w, m'.getLsbD i = true → m.getLsbD i = true ∧ b.getLsbD i = a.getLsbD i) :
    agree a m ⊆ agree b m' := by
  intro x hx
  rw [mem_agree_iff_getLsbD] at hx ⊢
  intro i hi hm'
  obtain ⟨hm, hab⟩ := h i hi hm'
  rw [hx i hi hm, hab]

/-! ### Open positions of a mask -/

/-- The bit positions a mask leaves open. -/
def zeroBits (m : BitVec w) : Finset ℕ := {i ∈ Finset.range w | m.getLsbD i = false}

theorem mem_zeroBits {m : BitVec w} {i : ℕ} : i ∈ zeroBits m ↔ i < w ∧ m.getLsbD i = false := by
  simp [zeroBits]

theorem card_zeroBits_le (m : BitVec w) : (zeroBits m).card ≤ w := by
  calc (zeroBits m).card ≤ (Finset.range w).card := Finset.card_filter_le _ _
    _ = w := Finset.card_range w

/-- A mask contained in another one with equally many open positions is that mask. -/
theorem eq_of_card_zeroBits_eq {m m' : BitVec w}
    (hsub : ∀ i < w, m'.getLsbD i = true → m.getLsbD i = true)
    (hcard : (zeroBits m').card = (zeroBits m).card) : m' = m := by
  have hss : zeroBits m ⊆ zeroBits m' := by
    intro i hi
    rw [mem_zeroBits] at hi ⊢
    refine ⟨hi.1, ?_⟩
    by_contra hne
    have htrue : m.getLsbD i = true := hsub i hi.1 (by simpa using hne)
    rw [hi.2] at htrue
    exact Bool.false_ne_true htrue
  have heq : zeroBits m = zeroBits m' := Finset.eq_of_subset_of_card_le hss hcard.le
  refine BitVec.eq_of_getLsbD_eq fun i hi => ?_
  have hiff : i ∈ zeroBits m ↔ i ∈ zeroBits m' := by rw [heq]
  rw [mem_zeroBits, mem_zeroBits] at hiff
  rcases hm : m.getLsbD i with _ | _ <;> rcases hm' : m'.getLsbD i with _ | _ <;>
    simp_all

end BitMask
