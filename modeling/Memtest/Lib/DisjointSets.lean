import Mathlib.Data.Set.Card
import Mathlib.Order.CompletePartialOrder

/-!
# Lists of pairwise disjoint sets

The number of elements of the union of a list of pairwise disjoint finite sets is the sum of their
numbers of elements, and an element of the union lies in exactly one of them.
-/

namespace DisjointSets

variable {α : Type*}

/-- The union of a list of sets. -/
def union (sets : List (Set α)) : Set α := {x | ∃ s ∈ sets, x ∈ s}

@[simp]
theorem mem_union {sets : List (Set α)} {x : α} : x ∈ union sets ↔ ∃ s ∈ sets, x ∈ s := Iff.rfl

@[simp]
theorem union_nil : union ([] : List (Set α)) = ∅ := by
  ext x
  simp

theorem union_cons (s : Set α) (sets : List (Set α)) : union (s :: sets) = s ∪ union sets := by
  ext x
  simp

theorem finite_union {sets : List (Set α)} (hfin : ∀ s ∈ sets, s.Finite) :
    (union sets).Finite := by
  induction sets with
  | nil => simp
  | cons s sets ih =>
    rw [union_cons]
    exact (hfin s (by simp)).union (ih fun t ht => hfin t (by simp [ht]))

theorem disjoint_union {s : Set α} {sets : List (Set α)} (h : ∀ t ∈ sets, Disjoint s t) :
    Disjoint s (union sets) := by
  rw [Set.disjoint_left]
  rintro x hx ⟨t, ht, hxt⟩
  exact Set.disjoint_left.mp (h t ht) hx hxt

theorem ncard_union {sets : List (Set α)} (hdisj : sets.Pairwise Disjoint)
    (hfin : ∀ s ∈ sets, s.Finite) : (union sets).ncard = (sets.map Set.ncard).sum := by
  induction sets with
  | nil => simp
  | cons s sets ih =>
    obtain ⟨hs, hrest⟩ := List.pairwise_cons.mp hdisj
    have hfin' : ∀ t ∈ sets, t.Finite := fun t ht => hfin t (by simp [ht])
    rw [union_cons, Set.ncard_union_eq (disjoint_union hs) (hfin s (by simp))
      (finite_union hfin'), ih hrest hfin', List.map_cons, List.sum_cons]

end DisjointSets
