import Mathlib.Algebra.GroupWithZero.Nat
import Mathlib.Data.List.Basic
import Mathlib.Data.List.Induction
import Mathlib.Data.List.Pairwise
import Mathlib.Data.Nat.Notation
import Mathlib.Tactic.SplitIfs

/-!
# Collecting items in groups

Each item has a key, and two keys may be the same as far as a part of them is concerned. The items
are dealt with one after the other: an item is added to the first group with the same key, or begins
a new group. The groups are a partition of the items by their keys.
-/

namespace Grouping

variable {α κ δ : Type} (same : κ → κ → Bool)

/-- An item is added to the first group with the same key, or begins a new one. -/
def add (k : κ) (x : α) : List (κ × List α) → List (κ × List α)
  | [] => [(k, [x])]
  | g :: gs => if same g.1 k then (g.1, g.2 ++ [x]) :: gs else g :: add k x gs

/-- The groups of some items. -/
def collect (key : α → κ) (xs : List α) : List (κ × List α) :=
  xs.foldl (fun gs x => add same (key x) x gs) []

/-- The number of items in some groups. -/
def total (gs : List (κ × List α)) : ℕ := (gs.map fun g => g.2.length).sum

variable {same} {part : κ → δ} {key : α → κ} {x y : α} {k : κ} {xs : List α}
  {gs : List (κ × List α)}

/-! ### One item -/

theorem total_add : total (add same k x gs) = total gs + 1 := by
  induction gs with
  | nil => rfl
  | cons g gs ih =>
    unfold total at ih ⊢
    rw [add]
    split_ifs
    · simp only [List.map_cons, List.sum_cons, List.length_append, List.length_singleton]
      omega
    · simp only [List.map_cons, List.sum_cons, ih]
      omega

/-- The items that are in some group. -/
theorem exists_mem_add : (∃ g ∈ add same k x gs, y ∈ g.2) ↔ (∃ g ∈ gs, y ∈ g.2) ∨ y = x := by
  induction gs with
  | nil => simp [add]
  | cons g gs ih =>
    rw [add]
    split_ifs
    · rw [List.exists_mem_cons_iff, List.exists_mem_cons_iff, List.mem_append, List.mem_singleton,
        or_assoc, or_assoc, or_comm (a := y = x)]
    · rw [List.exists_mem_cons_iff, ih, List.exists_mem_cons_iff, or_assoc]

/-- A group afterwards is one from before, perhaps with the item, or the new one. -/
theorem mem_add {g : κ × List α} (hg : g ∈ add same k x gs) :
    (∃ g' ∈ gs, g.1 = g'.1 ∧ (g.2 = g'.2 ∨ g.2 = g'.2 ++ [x] ∧ same g'.1 k = true)) ∨
      g = (k, [x]) := by
  induction gs with
  | nil => exact .inr (List.mem_singleton.mp hg)
  | cons h gs ih =>
    rw [add] at hg
    split_ifs at hg with hsame
    · rcases List.mem_cons.mp hg with rfl | hg
      · exact .inl ⟨h, List.mem_cons_self, rfl, .inr ⟨rfl, hsame⟩⟩
      · exact .inl ⟨g, List.mem_cons_of_mem _ hg, rfl, .inl rfl⟩
    · rcases List.mem_cons.mp hg with rfl | hg
      · exact .inl ⟨g, List.mem_cons_self, rfl, .inl rfl⟩
      · rcases ih hg with ⟨g', hg', heq⟩ | rfl
        · exact .inl ⟨g', List.mem_cons_of_mem _ hg', heq⟩
        · exact .inr rfl

/-- The groups have keys of their own, and each has items with its key. -/
structure Grouped (part : κ → δ) (key : α → κ) (gs : List (κ × List α)) : Prop where
  apart : gs.Pairwise fun g g' => part g.1 ≠ part g'.1
  items : ∀ g ∈ gs, ∀ x ∈ g.2, part g.1 = part (key x)

section Same

variable (hsame : ∀ k k', same k k' = true ↔ part k = part k')
include hsame

theorem Grouped.add (h : Grouped part key gs) :
    Grouped part key (Grouping.add same (key x) x gs) := by
  constructor
  · induction gs with
    | nil => exact List.pairwise_singleton _ _
    | cons g gs ih =>
      obtain ⟨hg, hgs⟩ := List.pairwise_cons.mp h.apart
      rw [Grouping.add]
      split_ifs with hkey
      · exact List.pairwise_cons.mpr ⟨hg, hgs⟩
      · refine List.pairwise_cons.mpr ⟨fun g' hg' => ?_,
          ih ⟨hgs, fun g' hg' => h.items g' (List.mem_cons_of_mem _ hg')⟩⟩
        rcases mem_add hg' with ⟨g'', hg'', heq, -⟩ | rfl
        · rw [heq]
          exact hg g'' hg''
        · exact fun heq => hkey ((hsame _ _).mpr heq)
  · intro g hg y hy
    rcases mem_add hg with ⟨g', hg', heq, hitems | ⟨hitems, hkey⟩⟩ | rfl
    · rw [heq]
      exact h.items g' hg' y (hitems ▸ hy)
    · rw [heq]
      rw [hitems] at hy
      rcases List.mem_append.mp hy with hy | hy
      · exact h.items g' hg' y hy
      · rw [List.mem_singleton.mp hy]
        exact (hsame _ _).mp hkey
    · rw [List.mem_singleton.mp hy]

end Same

/-! ### All items -/

theorem collect_concat (xs : List α) (x : α) :
    collect same key (xs ++ [x]) = add same (key x) x (collect same key xs) := by
  rw [collect, List.foldl_append]
  rfl

theorem total_collect (xs : List α) : total (collect same key xs) = xs.length := by
  induction xs using List.reverseRecOn with
  | nil => rfl
  | append_singleton xs x ih =>
    rw [collect_concat, total_add, ih, List.length_append, List.length_singleton]

theorem exists_mem_collect : (∃ g ∈ collect same key xs, y ∈ g.2) ↔ y ∈ xs := by
  induction xs using List.reverseRecOn with
  | nil => simp [collect]
  | append_singleton xs x ih =>
    rw [collect_concat, exists_mem_add, ih, List.mem_append, List.mem_singleton]

/-- Two items share a group if and only if their keys are the same. -/
theorem share_collect_iff (hsame : ∀ k k', same k k' = true ↔ part k = part k') (hx : x ∈ xs)
    (hy : y ∈ xs) : (∃ g ∈ collect same key xs, x ∈ g.2 ∧ y ∈ g.2) ↔
      part (key x) = part (key y) := by
  have hgrouped : Grouped part key (collect same key xs) := by
    clear hx hy
    induction xs using List.reverseRecOn with
    | nil => exact ⟨List.Pairwise.nil, fun _ h => absurd h List.not_mem_nil⟩
    | append_singleton xs x ih =>
      rw [collect_concat]
      exact ih.add hsame
  constructor
  · rintro ⟨g, hg, hxg, hyg⟩
    exact (hgrouped.items g hg x hxg).symm.trans (hgrouped.items g hg y hyg)
  · intro hkeys
    obtain ⟨g, hg, hxg⟩ := exists_mem_collect.mpr hx
    obtain ⟨g', hg', hyg⟩ := exists_mem_collect.mpr hy
    have heq : g = g' := by
      by_contra hne
      have : Std.Symm fun g g' : κ × List α => part g.1 ≠ part g'.1 := ⟨fun _ _ h => h.symm⟩
      exact hgrouped.apart.forall hg hg' hne ((hgrouped.items g hg x hxg).trans
        (hkeys.trans (hgrouped.items g' hg' y hyg).symm))
    exact ⟨g, hg, hxg, heq ▸ hyg⟩

end Grouping
