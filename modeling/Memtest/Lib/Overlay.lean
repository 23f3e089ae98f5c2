import Mathlib.Data.List.Basic
import Mathlib.Order.Lattice

/-!
# Overlays of valued intervals

A list of half-open intervals of natural numbers, each with a value, describes a function: the
value at a point is the highest value of the intervals that contain it, and `0` where there is
none. The intervals may overlap, repeat and be empty.

A *cut* is a point at which a sweep over the interval ends from left to right can see the value
change: the value just below, the value at the point, and the highest value among the intervals
that touch the point from either side (empty ones at the point included) are not all the same. A
*piece* is a stretch between two neighbouring cuts. Pieces are determined by any one of their
points, and the value is constant on each.
-/

namespace Overlay

/-- An interval `[lo, hi)` with a value. -/
structure Span where
  lo : ℕ
  hi : ℕ
  value : ℕ
  deriving DecidableEq, Repr

/-- The highest value among the spans that satisfy `p`, or `0`. -/
def top (spans : List Span) (p : Span → Bool) : ℕ :=
  ((spans.filter p).map Span.value).foldr max 0

theorem value_le_top {spans : List Span} {p : Span → Bool} {s : Span} (hs : s ∈ spans)
    (hp : p s = true) : s.value ≤ top spans p := by
  induction spans with
  | nil => simp at hs
  | cons a spans ih =>
    rw [top, List.filter_cons]
    rcases List.mem_cons.mp hs with rfl | hs
    · rw [if_pos hp]
      exact le_max_left _ _
    · split
      · exact (ih hs).trans (le_max_right _ _)
      · exact ih hs

theorem top_le {spans : List Span} {p : Span → Bool} {v : ℕ}
    (h : ∀ s ∈ spans, p s = true → s.value ≤ v) : top spans p ≤ v := by
  induction spans with
  | nil => exact Nat.zero_le v
  | cons a spans ih =>
    have hrec : top spans p ≤ v := ih fun s hs => h s (by simp [hs])
    rw [top, List.filter_cons]
    split
    · next hp => exact max_le (h a (by simp) hp) hrec
    · exact hrec

theorem top_mono {spans : List Span} {p q : Span → Bool}
    (h : ∀ s ∈ spans, p s = true → q s = true) : top spans p ≤ top spans q :=
  top_le fun _ hs hp => value_le_top hs (h _ hs hp)

theorem exists_of_top_ne_zero {spans : List Span} {p : Span → Bool} (h : top spans p ≠ 0) :
    ∃ s ∈ spans, p s = true ∧ s.value = top spans p := by
  induction spans with
  | nil => simp [top] at h
  | cons a spans ih =>
    rw [top, List.filter_cons] at h ⊢
    split at h
    · next hp =>
      rw [if_pos hp]
      rcases le_total (top spans p) a.value with hle | hle
      · exact ⟨a, by simp, hp, (max_eq_left hle).symm⟩
      · have hmax : max a.value (top spans p) = top spans p := max_eq_right hle
        have hne : top spans p ≠ 0 := fun h0 => h (hmax.trans h0)
        obtain ⟨s, hs, hps, hv⟩ := ih hne
        exact ⟨s, by simp [hs], hps, hv.trans hmax.symm⟩
    · next hp =>
      rw [if_neg hp]
      obtain ⟨s, hs, hps, hv⟩ := ih h
      exact ⟨s, by simp [hs], hps, hv⟩

/-! ### Values, cuts and pieces -/

/-- The value at a point. -/
def valueAt (spans : List Span) (x : ℕ) : ℕ := top spans fun s => s.lo ≤ x ∧ x < s.hi

/-- The value just below a point. -/
def valueBelow (spans : List Span) (x : ℕ) : ℕ := top spans fun s => s.lo < x ∧ x ≤ s.hi

/-- The highest value among the spans that touch a point, empty ones included. -/
def valueNear (spans : List Span) (x : ℕ) : ℕ := top spans fun s => s.lo ≤ x ∧ x ≤ s.hi

/-- A point at which the overlay changes, or would be seen to change by a sweep. -/
def IsCut (spans : List Span) (x : ℕ) : Prop :=
  ¬ (valueBelow spans x = valueNear spans x ∧ valueAt spans x = valueNear spans x)

/-- A stretch `[lo, hi)` between neighbouring cuts, with its value. -/
structure IsPiece (spans : List Span) (lo hi value : ℕ) : Prop where
  lt : lo < hi
  cut_lo : IsCut spans lo
  cut_hi : IsCut spans hi
  uncut : ∀ x, lo < x → x < hi → ¬ IsCut spans x
  valueAt_lo : valueAt spans lo = value
  value_ne : value ≠ 0

theorem valueBelow_succ (spans : List Span) (x : ℕ) :
    valueBelow spans (x + 1) = valueAt spans x :=
  le_antisymm (top_mono fun s _ h => by simp only [decide_eq_true_eq] at h ⊢; omega)
    (top_mono fun s _ h => by simp only [decide_eq_true_eq] at h ⊢; omega)

theorem valueAt_le_valueNear (spans : List Span) (x : ℕ) :
    valueAt spans x ≤ valueNear spans x :=
  top_mono fun s _ h => by simp only [decide_eq_true_eq] at h ⊢; omega

theorem valueAt_eq_of_not_isCut {spans : List Span} {x : ℕ} (h : ¬ IsCut spans (x + 1)) :
    valueAt spans (x + 1) = valueAt spans x := by
  rw [IsCut, not_not] at h
  rw [← valueBelow_succ spans x, h.1, h.2]

/-- The value is constant on a piece. -/
theorem IsPiece.valueAt_eq {spans : List Span} {lo hi v x : ℕ} (hp : IsPiece spans lo hi v)
    (hlo : lo ≤ x) (hhi : x < hi) : valueAt spans x = v := by
  induction x, hlo using Nat.le_induction with
  | base => exact hp.valueAt_lo
  | succ x hx ih =>
    rw [valueAt_eq_of_not_isCut (hp.uncut (x + 1) (by omega) hhi)]
    exact ih (by omega)

/-- Two pieces with a common point are the same. -/
theorem IsPiece.unique {spans : List Span} {lo hi v lo' hi' v' x : ℕ}
    (hp : IsPiece spans lo hi v) (hp' : IsPiece spans lo' hi' v') (hx : lo ≤ x ∧ x < hi)
    (hx' : lo' ≤ x ∧ x < hi') : lo = lo' ∧ hi = hi' ∧ v = v' := by
  have hlo : lo = lo' := by
    rcases Nat.lt_trichotomy lo lo' with h | h | h
    · exact absurd hp'.cut_lo (hp.uncut lo' h (by omega))
    · exact h
    · exact absurd hp.cut_lo (hp'.uncut lo h (by omega))
  have hhi : hi = hi' := by
    rcases Nat.lt_trichotomy hi hi' with h | h | h
    · exact absurd hp.cut_hi (hp'.uncut hi (by omega) h)
    · exact h
    · exact absurd hp'.cut_hi (hp.uncut hi' (by omega) h)
  exact ⟨hlo, hhi, by rw [← hp.valueAt_lo, ← hp'.valueAt_lo, hlo]⟩

end Overlay
