import Mathlib.Data.List.Perm.Basic
import Mathlib.Data.List.Sort
import Mathlib.Tactic.Ring

/-!
# Bubble sort with a change flag

The sort that repeats a pass of neighbour exchanges until a pass exchanges nothing. It is stated
over an arbitrary exchange test `lt`: two neighbours `a, b` are exchanged when `lt b a`. Each
exchange removes an inversion, so the loop ends; where it ends no neighbours need exchanging, which
for a strict weak order means that the whole list is in order.
-/

namespace BubbleSort

variable {α : Type*} (lt : α → α → Bool)

/-- One pass over `prev :: l`: the list afterwards and whether anything was exchanged. -/
def pass : α → List α → List α × Bool
  | prev, [] => ([prev], false)
  | prev, cur :: l =>
      if lt cur prev then (cur :: (pass prev l).1, true)
      else (prev :: (pass cur l).1, (pass cur l).2)

/-- One pass over a list. -/
def passList : List α → List α × Bool
  | [] => ([], false)
  | a :: l => pass lt a l

/-- Repeat passes while they exchange something, at most `fuel` times. -/
def loop : ℕ → List α → List α
  | 0, l => l
  | fuel + 1, l => if (passList lt l).2 then loop fuel (passList lt l).1 else (passList lt l).1

/-- Bubble sort: more passes than a list of this length has pairs are never needed. -/
def sort (l : List α) : List α := loop lt (l.length * l.length + 1) l

/-! ### The result is a permutation -/

theorem pass_perm (prev : α) (l : List α) : (pass lt prev l).1.Perm (prev :: l) := by
  induction l generalizing prev with
  | nil => exact .refl _
  | cons cur l ih =>
    rw [pass]
    split
    · exact ((ih prev).cons cur).trans (.swap prev cur l)
    · exact (ih cur).cons prev

theorem passList_perm (l : List α) : (passList lt l).1.Perm l := by
  cases l with
  | nil => exact .refl _
  | cons a l => exact pass_perm lt a l

theorem loop_perm (fuel : ℕ) (l : List α) : (loop lt fuel l).Perm l := by
  induction fuel generalizing l with
  | zero => exact .refl _
  | succ fuel ih =>
    rw [loop]
    split
    · exact (ih _).trans (passList_perm lt l)
    · exact passList_perm lt l

theorem sort_perm (l : List α) : (sort lt l).Perm l := loop_perm lt _ l

/-! ### The loop ends -/

/-- The number of pairs that are in the wrong order. -/
def inversions : List α → ℕ
  | [] => 0
  | a :: l => l.countP (fun b => lt b a) + inversions l

theorem inversions_le (l : List α) : inversions lt l ≤ l.length * l.length := by
  induction l with
  | nil => simp [inversions]
  | cons a l ih =>
    have hcount : l.countP (fun b => lt b a) ≤ l.length := List.countP_le_length
    calc inversions lt (a :: l) = l.countP (fun b => lt b a) + inversions lt l := rfl
      _ ≤ l.length + l.length * l.length := Nat.add_le_add hcount ih
      _ ≤ (a :: l).length * (a :: l).length := by
          rw [List.length_cons]
          ring_nf
          omega

variable {lt}

/-- A pass never adds an inversion, and removes one if it exchanges anything. -/
theorem inversions_pass (hasymm : ∀ a b, lt a b = true → lt b a = false) (prev : α)
    (l : List α) :
    inversions lt (pass lt prev l).1 + (if (pass lt prev l).2 then 1 else 0) ≤
      inversions lt (prev :: l) := by
  induction l generalizing prev with
  | nil => simp [pass]
  | cons cur l ih =>
    rw [pass]
    split
    · next h =>
      have hperm : (pass lt prev l).1.countP (fun b => lt b cur) =
          l.countP (fun b => lt b cur) := by
        rw [(pass_perm lt prev l).countP_eq, List.countP_cons, hasymm _ _ h]
        simp
      have hrec : inversions lt (pass lt prev l).1 ≤ inversions lt (prev :: l) :=
        le_trans (Nat.le_add_right _ _) (ih prev)
      simp only [inversions, hperm, List.countP_cons, h, if_true] at hrec ⊢
      omega
    · next h =>
      have hperm : (pass lt cur l).1.countP (fun b => lt b prev) =
          (cur :: l).countP (fun b => lt b prev) := (pass_perm lt cur l).countP_eq _
      have hrec := ih cur
      simp only [inversions, hperm] at hrec ⊢
      omega

/-- A pass that exchanges nothing leaves the list alone and certifies its neighbours. -/
theorem pass_eq_of_not_swapped {prev : α} {l : List α} (h : (pass lt prev l).2 = false) :
    (pass lt prev l).1 = prev :: l ∧ List.IsChain (fun a b => lt b a = false) (prev :: l) := by
  induction l generalizing prev with
  | nil => exact ⟨rfl, .singleton _⟩
  | cons cur l ih =>
    rw [pass] at h ⊢
    split
    · next hlt => simp [hlt] at h
    · next hlt =>
      rw [if_neg hlt] at h
      obtain ⟨heq, hchain⟩ := ih h
      exact ⟨by rw [heq], .cons_cons (by simpa using hlt) hchain⟩

theorem loop_isChain (hasymm : ∀ a b, lt a b = true → lt b a = false) {fuel : ℕ} {l : List α}
    (hfuel : inversions lt l < fuel) :
    List.IsChain (fun a b => lt b a = false) (loop lt fuel l) := by
  induction fuel generalizing l with
  | zero => omega
  | succ fuel ih =>
    cases l with
    | nil => simp [loop, passList]
    | cons a l =>
      have hinv := inversions_pass hasymm a l
      rw [loop, passList]
      split
      · next h =>
        rw [if_pos h] at hinv
        exact ih (by omega)
      · next h =>
        obtain ⟨heq, hchain⟩ := pass_eq_of_not_swapped (by simpa using h)
        rw [heq]
        exact hchain

/-- **Bubble sort sorts.** For a strict weak order no later element has to go before an earlier
one. -/
theorem sort_pairwise (hasymm : ∀ a b, lt a b = true → lt b a = false)
    (htrans : ∀ a b c, lt b a = false → lt c b = false → lt c a = false) (l : List α) :
    (sort lt l).Pairwise fun a b => lt b a = false := by
  have hchain := loop_isChain hasymm (l := l) (Nat.lt_succ_of_le (inversions_le lt l))
  have : IsTrans α fun a b => lt b a = false := ⟨fun a b c => htrans a b c⟩
  exact List.isChain_iff_pairwise.mp hchain

end BubbleSort
