import Mathlib.Data.List.Basic

/-!
# Tables of entries of different sizes

A table holds its entries end to end, each with its size in itself, so where an entry lies depends
on all those before it. `Laid` says that entries of a kind lie at some offsets, one after the other.
What a reader does with such a table it does entry by entry, over the list of the offsets.
-/

namespace Entries

variable {size : ℕ → ℕ} {ok : ℕ → Prop}

/-- Entries with the property `ok` lie end to end at `offs`, from `p` up to `q`. -/
inductive Laid (size : ℕ → ℕ) (ok : ℕ → Prop) : ℕ → List ℕ → ℕ → Prop
  | nil (p : ℕ) : Laid size ok p [] p
  | cons {p q : ℕ} {offs : List ℕ} : ok p → Laid size ok (p + size p) offs q →
      Laid size ok p (p :: offs) q

theorem Laid.mono {ok' : ℕ → Prop} {p q : ℕ} {offs : List ℕ} (h : Laid size ok p offs q)
    (himp : ∀ o ∈ offs, ok o → ok' o) : Laid size ok' p offs q := by
  induction h with
  | nil p => exact .nil p
  | cons hok _ ih =>
    refine .cons (himp _ List.mem_cons_self hok) (ih fun o ho => ?_)
    exact himp o (List.mem_cons_of_mem _ ho)

/-- From the same place, the offsets up to the first one that is not an entry are determined. -/
theorem Laid.unique {p q q' : ℕ} {offs offs' : List ℕ} (h : Laid size ok p offs q)
    (h' : Laid size ok p offs' q') (hq : ¬ok q) (hq' : ¬ok q') : offs = offs' ∧ q = q' := by
  induction h generalizing offs' with
  | nil p =>
    rcases h' with _ | ⟨hok, _⟩
    · exact ⟨rfl, rfl⟩
    · exact absurd hok hq
  | cons hok _ ih =>
    rcases h' with _ | ⟨_, hrest⟩
    · exact absurd hok hq'
    · obtain ⟨rfl, rfl⟩ := ih hrest hq
      exact ⟨rfl, rfl⟩

/-- Entries that are not empty and lie in front of an end are laid up to the first place where there
is none. -/
theorem exists_laid {fin : ℕ} (hok : ∀ p, ok p → p < fin ∧ 0 < size p) (p : ℕ) :
    ∃ offs q, Laid size ok p offs q ∧ ¬ok q := by
  by_cases hp : ok p
  · obtain ⟨hlt, hsize⟩ := hok p hp
    obtain ⟨offs, q, hlaid, hq⟩ := exists_laid hok (p + size p)
    exact ⟨p :: offs, q, .cons hp hlaid, hq⟩
  · exact ⟨[], p, .nil p, hp⟩
termination_by fin - p

end Entries
