import Mathlib.Data.Nat.Find
import Mathlib.Data.List.Basic

/-!
# Maximal runs of a sequence

A sequence `τ` that is sampled step by step splits into maximal runs of equal samples. A run is
named by the two steps that bound it: step `i` changes the value, the samples `i + 1, …, j` are
equal, and step `j` changes it again. Runs of one distinguished value `zero` are not counted.

`runs τ zero k` collects the runs that end before step `k` in one pass that remembers only where
the current run began. It is exactly the list of these runs, in order.
-/

namespace Runs

variable {β : Type*} [DecidableEq β] (τ : ℕ → β) (zero : β)

/-- Steps `i` and `j` bound a maximal run of a value other than `zero`. -/
structure IsRun (i j : ℕ) : Prop where
  lt : i < j
  opens : τ i ≠ τ (i + 1)
  const : ∀ m, i < m → m ≤ j → τ m = τ j
  value : τ j ≠ zero
  closes : τ j ≠ τ (j + 1)

/-- The step at which the run in progress after `k` steps began, if there is one. -/
def openAt : ℕ → Option ℕ
  | 0 => none
  | k + 1 => if τ k ≠ τ (k + 1) then (if τ (k + 1) ≠ zero then some k else none) else openAt k

/-- The runs that end before step `k`, in order. -/
def runs : ℕ → List (ℕ × ℕ)
  | 0 => []
  | k + 1 =>
      if τ k ≠ τ (k + 1) then
        match openAt τ zero k with
        | some i => runs k ++ [(i, k)]
        | none => runs k
      else runs k

variable {τ zero}

/-- What it means for a run to have begun at step `i` and to be in progress after `k` steps. -/
theorem openAt_eq_some_iff {k i : ℕ} :
    openAt τ zero k = some i ↔
      i < k ∧ τ i ≠ τ (i + 1) ∧ (∀ m, i < m → m ≤ k → τ m = τ k) ∧ τ k ≠ zero := by
  induction k with
  | zero => simp [openAt]
  | succ k ih =>
    rw [openAt]
    by_cases hch : τ k = τ (k + 1)
    · rw [if_neg (by simpa using hch), ih, hch]
      constructor
      · rintro ⟨hi, hne, hconst, hz⟩
        refine ⟨by omega, hne, fun m him hm => ?_, hz⟩
        rcases Nat.lt_or_ge k m with hkm | hkm
        · rw [show m = k + 1 by omega]
        · exact hconst m him hkm
      · rintro ⟨hi, hne, hconst, hz⟩
        have hik : i ≠ k := fun h => hne (by rw [h, hch])
        exact ⟨by omega, hne, fun m him hm => hconst m him (by omega), hz⟩
    · rw [if_pos hch]
      constructor
      · intro h
        split at h
        · next hz =>
          obtain rfl : k = i := by simpa using h
          refine ⟨by omega, hch, fun m him hm => ?_, hz⟩
          rw [show m = k + 1 by omega]
        · simp at h
      · rintro ⟨hi, hne, hconst, hz⟩
        have hik : i = k := by
          by_contra hik
          exact hch (hconst k (by omega) (by omega))
        rw [if_pos hz, hik]

theorem openAt_eq_none (h0 : τ 0 = zero) {k : ℕ} (h : openAt τ zero k = none) : τ k = zero := by
  induction k with
  | zero => exact h0
  | succ k ih =>
    rw [openAt] at h
    split at h
    · split at h
      · simp at h
      · next hz => simpa using hz
    · next hch =>
      have hch' : τ k = τ (k + 1) := by simpa using hch
      rw [← hch']
      exact ih h

theorem mem_runs_iff (h0 : τ 0 = zero) {k i j : ℕ} :
    (i, j) ∈ runs τ zero k ↔ j < k ∧ IsRun τ zero i j := by
  induction k with
  | zero => simp [runs]
  | succ k ih =>
    rw [runs]
    by_cases hch : τ k = τ (k + 1)
    · rw [if_neg (by simpa using hch), ih]
      constructor
      · rintro ⟨hj, hr⟩
        exact ⟨by omega, hr⟩
      · rintro ⟨hj, hr⟩
        have hjk : j ≠ k := fun h => hr.closes (by rw [h, hch])
        exact ⟨by omega, hr⟩
    · rw [if_pos hch]
      cases hopen : openAt τ zero k with
      | none =>
        have hz := openAt_eq_none h0 hopen
        rw [ih]
        constructor
        · rintro ⟨hj, hr⟩
          exact ⟨by omega, hr⟩
        · rintro ⟨hj, hr⟩
          have hjk : j ≠ k := fun h => hr.value (by rw [h, hz])
          exact ⟨by omega, hr⟩
      | some i' =>
        obtain ⟨hi', hne, hconst, hz⟩ := openAt_eq_some_iff.mp hopen
        rw [List.mem_append, ih, List.mem_singleton, Prod.mk.injEq]
        constructor
        · rintro (⟨hj, hr⟩ | ⟨rfl, rfl⟩)
          · exact ⟨by omega, hr⟩
          · exact ⟨by omega, hi', hne, hconst, hz, hch⟩
        · rintro ⟨hj, hr⟩
          rcases Nat.lt_or_ge j k with hjk | hjk
          · exact .inl ⟨hjk, hr⟩
          · obtain rfl : j = k := by omega
            -- two steps that both open the run in progress coincide
            have hsome := openAt_eq_some_iff.mpr ⟨hr.lt, hr.opens, hr.const, hr.value⟩
            rw [hopen, Option.some.injEq] at hsome
            exact .inr ⟨hsome.symm, rfl⟩

/-- Runs do not overlap: one ends no later than the next begins. -/
theorem runs_pairwise (h0 : τ 0 = zero) (k : ℕ) :
    (runs τ zero k).Pairwise fun a b => a.2 ≤ b.1 := by
  induction k with
  | zero => simp [runs]
  | succ k ih =>
    rw [runs]
    split
    · cases hopen : openAt τ zero k with
      | none => exact ih
      | some i =>
        obtain ⟨hi, hne, hconst, hz⟩ := openAt_eq_some_iff.mp hopen
        refine List.pairwise_append.mpr ⟨ih, List.pairwise_singleton _ _, ?_⟩
        rintro ⟨a, b⟩ hab c hc
        obtain rfl : c = (i, k) := by simpa using hc
        obtain ⟨hbk, hr⟩ := (mem_runs_iff h0).mp hab
        -- a run that reached past step `i` would change value inside the run in progress
        by_contra hlt
        have h1 : τ b = τ k := hconst b (by omega) (by omega)
        have h2 : τ (b + 1) = τ k := hconst (b + 1) (by omega) (by omega)
        exact hr.closes (by rw [h1, h2])
    · exact ih

/-- In a sequence that starts and ends with `zero`, every other sample lies in a run. -/
theorem exists_isRun (h0 : τ 0 = zero) {n m : ℕ} (hn : τ n = zero) (hm : m ≤ n)
    (hv : τ m ≠ zero) : ∃ i j, i < m ∧ m ≤ j ∧ j < n ∧ τ j = τ m ∧ IsRun τ zero i j := by
  have hex : ∃ d, τ (m + d + 1) ≠ τ m := by
    have hne : m ≠ n := fun h => hv (by rw [h, hn])
    refine ⟨n - m - 1, ?_⟩
    rw [show m + (n - m - 1) + 1 = n by omega, hn]
    exact fun h => hv h.symm
  classical
  set d := Nat.find hex with hd
  have hsame : ∀ e, e ≤ d → τ (m + e) = τ m := by
    intro e he
    cases e with
    | zero => rfl
    | succ e =>
      by_contra hne
      exact Nat.find_min hex (m := e) (by omega) hne
  obtain ⟨i, hi⟩ : ∃ i, openAt τ zero m = some i := by
    rcases h : openAt τ zero m with _ | i
    · exact absurd (openAt_eq_none h0 h) hv
    · exact ⟨i, rfl⟩
  obtain ⟨him, hne, hconst, -⟩ := openAt_eq_some_iff.mp hi
  have hlast : τ (m + d) = τ m := hsame d le_rfl
  have hjn : m + d < n := by
    by_contra hge
    exact hv (by rw [← hsame (n - m) (by omega), show m + (n - m) = n by omega, hn])
  refine ⟨i, m + d, him, by omega, hjn, hlast, ⟨by omega, hne, fun l hl hld => ?_, ?_, ?_⟩⟩
  · rcases Nat.lt_or_ge m l with h | h
    · rw [hlast, show l = m + (l - m) by omega]
      exact hsame _ (by omega)
    · rw [hlast, hconst l hl h]
  · rw [hlast]
    exact hv
  · rw [hlast]
    exact fun h => Nat.find_spec hex h.symm

end Runs
